import NestedColumns.Proofs.Column.Readers
import NestedColumns.Proofs.Projection.Levels
import NestedColumns.Proofs.Store.Holdings
import NestedColumns.Store.Export

/-!
# Reading a table

The records of a table at some paths are those of the documents it holds, one for each and
in order. No check on the way fails: the files are there, their indexes cover all documents,
their pages pass, and whatever the columns have is put together.

What is assumed is that the numbers in the files fit their fields.

## Main definitions

* `Table.Small`: The numbers in the files of a table fit their fields.
* `Store.Shows`: A record shows a document.

## Theorems

* `Store.reader_spec`: A reader has the records of all documents left.
* `Store.records_spec`: The records of a table.
-/

namespace NestedColumns

open Json (kept shown)
open Projection (streamsOf)

/-- The numbers in the files of a table that holds some documents fit their fields. -/
def Table.Small (o : StoreOptions) (t : Table) (documents : List Taken) : Prop :=
  ∀ batch ∈ Page.cut (t.chunks.map (·.recordCount)) documents, ∀ leaf ∈ t.schema.leaves,
    Column.Small ⟨leaf.maxRep, leaf.maxDef⟩ o.columnOptions
      (batch.map fun x => x.entries leaf.column)

instance (o : StoreOptions) (t : Table) (documents : List Taken) :
    Decidable (t.Small o documents) :=
  inferInstanceAs (Decidable (∀ batch ∈ Page.cut (t.chunks.map (·.recordCount)) documents,
    ∀ leaf ∈ t.schema.leaves, Column.Small ⟨leaf.maxRep, leaf.maxDef⟩ o.columnOptions
      (batch.map fun x => x.entries leaf.column)))

namespace Store

variable {s : Store} {v : Volume} {bodies : PageKey → Option (List UInt8)} {t : Table}
  {documents : List Taken} {batches : List (List Taken)}

theorem forall₂_imp_mem {α β : Type} {R S : α → β → Prop} {as : List α} {bs : List β}
    (h : List.Forall₂ R as bs) (hs : ∀ a b, b ∈ bs → R a b → S a b) : List.Forall₂ S as bs := by
  induction h with
  | nil => exact .nil
  | cons hab _ ih =>
      exact .cons (hs _ _ List.mem_cons_self hab)
        (ih fun a b hb => hs a b (List.mem_cons_of_mem _ hb))

-- The counts of the chunks tell where their documents end.
theorem recordCounts_eq {o : StoreOptions} {log : Nat} {d : Disk} {schema : Schema} {ref : TableRef}
    {chunks : List ChunkInfo}
    (h : List.Forall₂ (ChunkFiles o log d bodies schema ref) chunks batches) :
    chunks.map (·.recordCount) = batches.map (·.length) := by
  induction h with
  | nil => rfl
  | cons hfile _ ih => rw [List.map_cons, List.map_cons, hfile.count, ih]

theorem recordCount_eq (h : s.TableHolds bodies t documents) : t.recordCount = documents.length := by
  rcases h.chunks with ⟨batches, rfl, hfiles⟩
  rw [Table.recordCount, recordCounts_eq hfiles, List.length_flatten]

-- A cursor over all chunks has the entries of all documents ahead.
theorem ahead_ofChunks (hlevels : s.options.maxLevel < 256) (h : s.TableHolds bodies t documents)
    (hsmall : t.Small s.options documents) {way : Way} {column : Nat} {type : DataType}
    (hw : t.schema.root.at? way = some (.leaf column type)) :
    (Cursor.ofChunks column ⟨way.elements, way.length⟩ (s.diskChunks t)).Ahead s.disk bodies
      (documents.map fun x => x.entries column) := by
  rcases h.chunks with ⟨batches, rfl, hfiles⟩
  rcases ChunkBuffer.exists_leaf? h.schema hw with ⟨leaf, hleaf, hrep, hdef⟩
  have hin : leaf ∈ t.schema.leaves := List.mem_reverse.mp (List.mem_of_find?_eq_some hleaf)
  have hcolumn : leaf.column = column := by
    simpa only [decide_eq_true_eq] using List.find?_some hleaf
  have hcut : Page.cut (t.chunks.map (·.recordCount)) batches.flatten = batches := by
    rw [recordCounts_eq hfiles]
    exact Page.cut_flatten batches
  rw [Table.Small, hcut] at hsmall
  rw [List.map_flatten]
  refine Cursor.ahead_ofChunks ?_
  rw [diskChunks, List.forall₂_map_left_iff, List.forall₂_map_right_iff]
  refine forall₂_imp_mem hfiles fun info batch hbatch hfile => ?_
  have hunder : ∀ x ∈ batch, x.Under s.options.maxLevel t.schema := fun x hx =>
    h.under x (List.mem_flatten.mpr ⟨batch, hbatch, hx⟩)
  have hfits := hsmall batch hbatch leaf hin
  rw [hrep, hdef, hcolumn] at hfits
  exact hfile.gives h.schema hlevels hunder hw hfits

/-- A record shows what a document is at the paths of a projection. -/
def Shows (p : Projection) (x : Taken) (record : Record) : Prop :=
  record.toJson = shown p.schema.root (kept x.schema.root x.document)

theorem map_toJson_of_shows {p : Projection} {records : List Record}
    (h : List.Forall₂ (Shows p) documents records) : records.map Record.toJson =
      documents.map fun x => shown p.schema.root (kept x.schema.root x.document) := by
  induction h with
  | nil => rfl
  | cons hrecord _ ih => rw [List.map_cons, List.map_cons, hrecord, ih]

-- A reader has a cursor for each column that its projection reads.
theorem reader_eq_ok {database name : String} {paths : List String} {r : RecordReader} :
    s.reader database name paths = .ok r ↔ ∃ t p, s.tableNamed database name = .ok t ∧
      Projection.resolve t.schema paths = .ok p ∧ r = ⟨p, p.reads.map fun column =>
        Cursor.ofChunks column.column ⟨column.maxRep, column.maxDef⟩ (s.diskChunks t),
          t.recordCount, 0⟩ := by
  constructor
  · intro h
    rw [reader] at h
    split at h
    · cases h
    · next t ht =>
      split at h
      · cases h
      · next p hp => exact ⟨t, p, ht, hp, (Except.ok.inj h).symm⟩
  · rintro ⟨t, p, ht, hp, rfl⟩
    rw [reader, ht]
    simp only [hp]

/-- A reader of a table that holds some documents, at paths that it has, has their records left. -/
theorem reader_spec (hlevels : s.options.maxLevel < 256) (h : s.TableHolds bodies t documents)
    (hsmall : t.Small s.options documents) {database name : String} {paths : List String}
    {p : Projection} (ht : s.tableNamed database name = .ok t)
    (hp : Projection.resolve t.schema paths = .ok p) :
    ∃ r, s.reader database name paths = .ok r ∧
      RecordReader.Ready s.disk bodies Taken.entries (Shows p) documents r := by
  refine ⟨_, reader_eq_ok.mpr ⟨t, p, ht, hp, rfl⟩, ?_, ?_, fun x hx => ?_⟩
  · rw [RecordReader.AllAhead, List.forall₂_map_right_iff, List.forall₂_same]
    intro column hcolumn
    rcases Projection.exists_way_of_reads h.schema hp column hcolumn with ⟨way, type, hw, hrep, hdef⟩
    rw [hrep, hdef]
    exact ahead_ofChunks hlevels h hsmall hw
  · rw [Nat.zero_add]
    exact recordCount_eq h
  · have hunder := h.under x hx
    rcases hunder.stored with ⟨members, hdocument, hstored⟩
    have hfits := hunder.fits
    rw [hdocument] at hfits
    rcases Records.assemble_stored hunder.sound h.schema hunder.grown hfits hstored hp with
      ⟨record, hrecord, hjson⟩
    refine ⟨record, hrecord, ?_⟩
    rw [Shows, hdocument]
    exact hjson

/-- The records of a table that holds some documents, at paths that it has, are what the
    projection shows of what the schemas of their times kept. -/
theorem records_spec (hlevels : s.options.maxLevel < 256) (hright : s.volume.Right bodies)
    (h : s.TableHolds bodies t documents) (hsmall : t.Small s.options documents)
    {database name : String} {paths : List String} {p : Projection}
    (ht : s.tableNamed database name = .ok t) (hp : Projection.resolve t.schema paths = .ok p) :
    ∃ v records, s.records database name paths = (s.setVolume v, .ok records) ∧
      v.disk = s.disk ∧ v.Right bodies ∧ records.map Record.toJson =
        documents.map fun x => shown p.schema.root (kept x.schema.root x.document) := by
  rcases reader_spec hlevels h hsmall ht hp with ⟨r, hreader, hready⟩
  rcases hready.all rfl hright with ⟨v, records, hall, hdisk, hright', hrecords⟩
  refine ⟨v, records, ?_, hdisk, hright', map_toJson_of_shows hrecords⟩
  rw [Store.records, hreader]
  simp only [drain, hall, Except.mapError]

end Store

end NestedColumns
