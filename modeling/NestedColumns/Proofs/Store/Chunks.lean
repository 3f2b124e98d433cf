import NestedColumns.Proofs.Column.Buffers
import NestedColumns.Proofs.Column.Cursors
import NestedColumns.Proofs.Records
import NestedColumns.Proofs.Store.Paths

/-!
# What the chunks of a table hold

A document that is in a chunk was taken apart by the schema of its time, which the schema
of the table has grown from. The files of the chunk hold what the documents have in each
column that any of them touched, and are read back by the levels of the table's schema,
however much that has grown since.

## Main definitions

* `Taken`: A document with the schema it was taken apart by.
* `Taken.Under`: It fits that schema, from which another has grown.
* `ChunkFiles`: The files of a chunk hold documents.

## Theorems

* `Taken.Under.within`: The entries of a document are within the levels of the column.
* `ChunkFiles.changes`, `ChunkFiles.grow`: The files hold the documents on.
* `ChunkFiles.gives`: The documents can be read.
-/

namespace NestedColumns

open Schema (Node)
open Json (Fits kept keptMembers stream)
open Documents (StoredBy)

/-- A document that was accepted, with the schema it was taken apart by. -/
structure Taken where
  schema : Schema
  document : Json

namespace Taken

/-- What a document has in a column. -/
def entries (x : Taken) (column : Nat) : List Triple :=
  match Shredding.shred x.schema x.document with
  | .ok streams => ChunkBuffer.entriesIn column streams
  | .error _ => []

/-- A document fits the schema of its time, from which another one has grown. -/
structure Under (limit : Nat) (schema : Schema) (x : Taken) : Prop where
  sound : x.schema.Sound limit
  grown : x.schema.GrownFrom schema
  fits : Fits x.schema.root x.document

variable {limit : Nat} {schema schema' : Schema} {x : Taken}

theorem Under.grow (h : x.Under limit schema) (hg : schema.GrownFrom schema') :
    x.Under limit schema' :=
  ⟨h.sound, h.grown.trans hg, h.fits⟩

theorem entries_of_shred {streams : Shredding.Streams}
    (h : Shredding.shred x.schema x.document = .ok streams) (column : Nat) :
    x.entries column = ChunkBuffer.entriesIn column streams := by
  rw [entries, h]

theorem Under.stored (h : x.Under limit schema) :
    ∃ members, x.document = .object members ∧
      StoredBy x.schema.fields (.object (keptMembers x.schema.fields members)) x.entries := by
  rcases Json.fits_object.mp h.fits with ⟨members, hdocument, -⟩
  rcases Shredding.exists_shred_iff.mpr h.fits with ⟨streams, hstreams⟩
  have hentries : x.entries = fun column => (streams.find? column).getD [] :=
    funext fun column => entries_of_shred hstreams column
  refine ⟨members, hdocument, ?_⟩
  rw [hentries]
  exact Records.storedBy_shred h.sound (hdocument ▸ hstreams)

-- What the way to a column passes in the document is bounded by the way.
theorem Under.within (h : x.Under limit schema) (hs : schema.Sound limit) {way : Way}
    {column : Nat} {type : DataType} (hw : schema.root.at? way = some (.leaf column type)) :
    ∀ t ∈ x.entries column, t.WithinLevels way.elements way.length := by
  intro t ht
  rcases h.stored with ⟨members, hdocument, hstored⟩
  have hfits := h.fits
  rw [hdocument] at hfits
  by_cases hin : column ∈ x.schema.root.columns
  · rcases Node.exists_way h.sound.names hin with ⟨way', type', hw'⟩
    rcases h.grown.grows.at?_leaf hw' with ⟨type'', hgrown⟩
    have hway : way' = way := Node.way_unique hs.distinct hgrown hw
    subst hway
    rw [hstored.own way' column type' hw', Shredding.touched] at ht
    split at ht
    · cases ht
    · rw [Option.getD_some] at ht
      have hconforms := hfits.conforms h.grown.grows h.sound.names hw
      have hlevels := Json.stream_within (Nat.le_refl 0) t ht
      have hpresence := Json.stream_presence hconforms t ht
      rw [Nat.zero_add, Nat.zero_add] at hlevels
      rw [Nat.zero_add] at hpresence
      exact ⟨hlevels.1, hlevels.2, hpresence⟩
  · rw [hstored.others column hin] at ht
    cases ht

end Taken

/-! ### Files -/

/-- The files of a column hold the entries of documents, and what is kept of their pages
    is what they hold. -/
structure ColumnFiles (o : StoreOptions) (log : Nat) (d : Disk)
    (bodies : PageKey → Option (List UInt8)) (chunk : DiskChunk) (column : Nat)
    (layout : PageLayout) (records : List (List Triple)) : Prop where
  index : d.Keeps log (chunk.indexPath column) (Column.encode layout o.columnOptions records).index
  data : d.Keeps log (chunk.dataPath column) (Column.encode layout o.columnOptions records).data
  places : ∀ (n : Nat) (page : Page),
    (Column.pack layout o.columnOptions.targetPageSize records)[n]? = some page →
      bodies ⟨chunk.info.chunk, column, n⟩ = some (Page.body layout page)

/-- The files of a chunk hold what documents have in the columns of a schema. -/
structure ChunkFiles (o : StoreOptions) (log : Nat) (d : Disk)
    (bodies : PageKey → Option (List UInt8)) (schema : Schema) (ref : TableRef)
    (info : ChunkInfo) (batch : List Taken) : Prop where
  count : info.recordCount = batch.length
  unlisted : ∀ column, info.columns.contains column = false → ∀ x ∈ batch, x.entries column = []
  listed : ∀ column, info.columns.contains column = true →
    ∃ way type, schema.root.at? way = some (.leaf column type) ∧
      ColumnFiles o log d bodies ⟨o.chunkPath ref info.chunk, info⟩ column
        ⟨way.elements, way.length⟩ (batch.map fun x => x.entries column)

namespace ChunkFiles

variable {o : StoreOptions} {log limit : Nat} {d d' : Disk}
  {bodies bodies' : PageKey → Option (List UInt8)} {schema schema' : Schema} {ref : TableRef}
  {info : ChunkInfo} {batch : List Taken}

theorem changes {spared : Path → Prop} {made : Path → DiskNode → Prop}
    (h : ChunkFiles o log d bodies schema ref info batch)
    (hc : Disk.Changes spared made (· = log) d.left d'.left)
    (hs : ∀ path, o.chunkPath ref info.chunk <+: path → spared path) :
    ChunkFiles o log d' bodies schema ref info batch where
  count := h.count
  unlisted := h.unlisted
  listed := fun column hcolumn => by
    rcases h.listed column hcolumn with ⟨way, type, hw, hfiles⟩
    exact ⟨way, type, hw, hc.keeps (hs _ (List.prefix_append ..)) hfiles.index,
      hc.keeps (hs _ (List.prefix_append ..)) hfiles.data, hfiles.places⟩

theorem grow (h : ChunkFiles o log d bodies schema ref info batch)
    (hg : schema.GrownFrom schema') : ChunkFiles o log d bodies schema' ref info batch where
  count := h.count
  unlisted := h.unlisted
  listed := fun column hcolumn => by
    rcases h.listed column hcolumn with ⟨way, type, hw, hfiles⟩
    rcases hg.grows.at?_leaf hw with ⟨type', hw'⟩
    exact ⟨way, type', hw', hfiles⟩

-- What other chunks hold does not matter.
theorem others (h : ChunkFiles o log d bodies schema ref info batch)
    (hb : ∀ key : PageKey, key.chunk = info.chunk → bodies' key = bodies key) :
    ChunkFiles o log d bodies' schema ref info batch where
  count := h.count
  unlisted := h.unlisted
  listed := fun column hcolumn => by
    rcases h.listed column hcolumn with ⟨way, type, hw, hfiles⟩
    refine ⟨way, type, hw, hfiles.index, hfiles.data, fun n page hpage => ?_⟩
    rw [hb ⟨info.chunk, column, n⟩ rfl]
    exact hfiles.places n page hpage

-- A chunk without the column has nothing to say about it, and as many documents.
theorem gives (h : ChunkFiles o log d bodies schema ref info batch) (hs : schema.Sound limit)
    (hlimit : limit < 256) (hx : ∀ x ∈ batch, x.Under limit schema) {way : Way} {column : Nat}
    {type : DataType} (hw : schema.root.at? way = some (.leaf column type))
    (hsmall : Column.Small ⟨way.elements, way.length⟩ o.columnOptions
      (batch.map fun x => x.entries column)) :
    DiskChunk.Gives d bodies column ⟨way.elements, way.length⟩
      ⟨o.chunkPath ref info.chunk, info⟩ (batch.map fun x => x.entries column) := by
  cases hlisted : info.columns.contains column with
  | false =>
      have hempty : batch.map (fun x => x.entries column) = List.replicate info.recordCount [] := by
        rw [List.eq_replicate_iff, List.length_map]
        refine ⟨h.count.symm, fun entries he => ?_⟩
        rcases List.mem_map.mp he with ⟨x, hx, rfl⟩
        exact h.unlisted column hlisted x hx
      rw [hempty]
      exact .missing hlisted
  | true =>
      rcases h.listed column hlisted with ⟨way', type', hw', hfiles⟩
      have hway : way' = way := Node.way_unique hs.distinct hw' hw
      subst hway
      have hheight := hs.height
      have hlength := Node.length_le_height hw
      have helements : way'.elements ≤ way'.length := List.countP_le_length
      have hdef : way'.length < 256 := by omega
      have hrep : way'.elements < 256 := by omega
      have hcount : info.recordCount = (batch.map fun x => x.entries column).length := by
        rw [List.length_map, h.count]
      refine .stored hlisted hcount hfiles.index.read hfiles.data.read hsmall ?_ hfiles.places
      refine hsmall.wellFormed hrep hdef fun record hrecord => ?_
      rcases List.mem_map.mp hrecord with ⟨x, hin, rfl⟩
      exact (hx x hin).within hs hw

end ChunkFiles

end NestedColumns
