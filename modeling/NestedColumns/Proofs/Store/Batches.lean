import NestedColumns.Proofs.Store.Writing

/-!
# Batches of records, written and read back

Records whose entries are within the levels of their columns are appended to a buffer,
which becomes the files of a chunk. Several chunks, each in a directory of its own, are
read back by cursors: whatever a schema says about other columns, however large pages are
made and whatever their checksums, a cursor gives at its turns what each record had in its
column, and nothing for a record that never touched it.

The files alone decide this. Whether a batch comes from documents, and whether its schema
could come from merging any, does not matter, so neither is asked for.

## Main definitions

* `Batch`: Records on their way to a chunk.
* `Batch.WellFormed`: Its records are within the levels of their columns.
* `Batch.writes`, `Batch.stored`: How chunks are written, and what a chunk is on the disk.
* `DiskChunk.Covered`: The index of each column covers its file and the documents.

## Theorems

* `Batch.WellFormed.exists_encoded`: A batch becomes the files of its columns.
* `Batch.writes_since`, `Batch.exists_writes`: Chunks that could be written are there, and
  they can be where nothing is in the way.
* `Batch.gives_column`, `Batch.covered_columns`: What a chunk gives, and what its indexes say.
* `Batch.read_back`: What was written is read back, record by record.
-/

namespace NestedColumns

open Shredding (Streams)

instance (maxRep maxDef : Nat) (t : Triple) : Decidable (t.WithinLevels maxRep maxDef) :=
  inferInstanceAs (Decidable (t.rep ≤ maxRep ∧ t.level ≤ maxDef ∧
    (t.value.isSome = true ↔ t.level = maxDef)))

/-- The index of each column of a chunk can be read, and its pages lie one behind the other,
    from the first byte of the column's file and the first document of the chunk to the last. -/
def DiskChunk.Covered (d : Disk) (c : DiskChunk) : Prop :=
  ∀ column ∈ c.info.columns, ∃ bytes index data, d.read (c.indexPath column) = .ok bytes ∧
    PageIndex.decode bytes = .ok index ∧ d.read (c.dataPath column) = .ok data ∧
      index.Tiles data.length c.info.recordCount 0 0

/-- Neither of two paths is inside the other one. -/
def Path.Apart (a b : Path) : Prop :=
  ¬ a <+: b ∧ ¬ b <+: a

instance (a b : Path) : Decidable (a.Apart b) :=
  inferInstanceAs (Decidable (¬ a <+: b ∧ ¬ b <+: a))

/-- Records on their way to a chunk: its number and directory, the schema that the levels of
    its columns are taken from, and how its files are written. -/
structure Batch where
  chunk : Nat
  directory : Path
  records : List Streams
  schema : Schema
  options : ColumnOptions

namespace Batch

/-- The files of a batch, from a buffer that its records are appended to. -/
def encoded (b : Batch) : Except Nat EncodedChunk :=
  (b.records.foldl ChunkBuffer.append .empty).encode b.schema b.options

/-- The columns that any of the records touched. -/
def columns (b : Batch) : List Nat :=
  b.records.flatMap (·.ids)

/-- What each record has in a column. -/
def documents (b : Batch) (column : Nat) : List (List Triple) :=
  b.records.map (ChunkBuffer.entriesIn column)

/-- The entries of a batch are within the levels of their columns, which are single bytes, its
    schema has the columns with these levels, and no number is too large for its field. -/
structure WellFormed (layout : Nat → PageLayout) (b : Batch) : Prop where
  levels : ∀ column ∈ b.columns, (layout column).maxRep < 256 ∧ (layout column).maxDef < 256
  within : ∀ column ∈ b.columns, ∀ record ∈ b.documents column, ∀ t ∈ record,
    t.WithinLevels (layout column).maxRep (layout column).maxDef
  listed : ∀ column ∈ b.columns, ∃ leaf ∈ b.schema.leaves, leaf.column = column
  leaves : ∀ leaf ∈ b.schema.leaves, leaf.column ∈ b.columns →
    layout leaf.column = ⟨leaf.maxRep, leaf.maxDef⟩
  small : ∀ column ∈ b.columns, Column.Small (layout column) b.options (b.documents column)

/-- The chunk that a batch is written as. -/
def stored (p : Batch × EncodedChunk) : DiskChunk :=
  ⟨p.1.directory, ⟨p.1.chunk, p.2.recordCount, p.2.columnIds⟩⟩

/-- Writing chunks one after another. -/
def writes (written : List (Batch × EncodedChunk)) : List Effect :=
  written.flatMap fun p => Session.chunkEffects p.1.directory p.2

/-- The files of a batch have what its records have in the columns they touched. -/
structure Encodes (layout : Nat → PageLayout) (p : Batch × EncodedChunk) : Prop where
  count : p.2.recordCount = p.1.records.length
  distinct : p.2.columnIds.Nodup
  touched : ∀ column, column ∈ p.2.columnIds ↔ column ∈ p.1.columns
  files : ∀ f ∈ p.2.columns, f.2 = Column.encode (layout f.1) p.1.options (p.1.documents f.1)

variable {layout : Nat → PageLayout} {b : Batch}

theorem mem_columns {column : Nat} :
    column ∈ b.columns ↔ ∃ streams ∈ b.records, (streams.find? column).isSome = true := by
  simp only [columns, List.mem_flatMap, ← Option.ne_none_iff_isSome, ne_eq,
    IdMap.find?_eq_none_iff, not_not]

theorem WellFormed.exists_encoded (hw : b.WellFormed layout) :
    ∃ chunk, b.encoded = .ok chunk ∧ Encodes layout (b, chunk) := by
  have hholds : (b.records.foldl ChunkBuffer.append .empty).Holds b.records :=
    ChunkBuffer.holds_empty.foldl b.records
  have hleaf : ∀ column ∈ b.columns, ∃ leaf ∈ b.schema.leaves,
      ChunkBuffer.leaf? b.schema column = some leaf ∧ leaf.column = column := by
    intro column hcolumn
    rcases hw.listed column hcolumn with ⟨l, hl, rfl⟩
    exact ChunkBuffer.exists_leaf?_of_mem hl
  rcases hholds.exists_encode fun streams hstreams column hsome =>
      (hleaf column (mem_columns.mpr ⟨streams, hstreams, hsome⟩)).imp fun _ h => h.2.1 with
    ⟨chunk, hencode, hcount, hids, hlisted, hfiles⟩
  have htouched : ∀ column, column ∈ chunk.columnIds ↔ column ∈ b.columns := fun column =>
    (hlisted column).trans mem_columns.symm
  refine ⟨chunk, hencode, hcount, hids, htouched, fun f hf => ?_⟩
  have hcolumn := (htouched f.1).mp (List.mem_map_of_mem hf)
  rcases hfiles f hf with ⟨leaf, hfound, hfile⟩
  rcases hleaf f.1 hcolumn with ⟨leaf', hin, hfound', hsame⟩
  rw [hfound, Option.some.injEq] at hfound'
  subst hfound'
  have hlevels := hw.leaves leaf hin (hsame ▸ hcolumn)
  rw [hsame] at hlevels
  rw [hlevels]
  exact hfile

/-! ### Writing -/

section

variable {d d' : Disk} {p : Batch × EncodedChunk} {written : List (Batch × EncodedChunk)}

theorem writes_changes {result : Except FileError Unit}
    (h : d.performAll (writes written) = (d', result)) :
    Disk.Changes (fun _ => True) (fun _ _ => True) (fun _ => False) d d' :=
  Disk.changes_of_performAll h fun e he => by
    rcases List.mem_flatMap.mp he with ⟨p, -, he⟩
    exact (Session.chunkEffects_inside p.1.directory _ _ p.2 e he).weaken (fun _ h => h)
      (fun _ _ _ => trivial) fun _ h => h

-- A chunk that could be written is not written to by those after it.
theorem writes_since (h : d.performAll (writes written) = (d', .ok ())) :
    ∀ p ∈ written, ∀ f ∈ Session.chunkFiles p.1.directory p.2.columns,
      d'.Since d.nextFile f.1 f.2 := by
  induction written generalizing d with
  | nil => exact fun p hp => absurd hp List.not_mem_nil
  | cons p rest ih =>
      rw [writes, List.flatMap_cons, Disk.performAll_append_eq_ok] at h
      rcases h with ⟨d₁, hfirst, hrest⟩
      intro q hq f hf
      rcases List.mem_cons.mp hq with rfl | hq
      · exact (writes_changes hrest).since trivial ((Session.chunkEffects_since hfirst).2 f hf)
      · exact (ih hrest q hq f hf).earlier (Session.chunkEffects_changes hfirst).nextFile

-- What is written to one directory is not in the way of another one apart from it.
theorem free_of_apart {a b : Path} {chunk : EncodedChunk} (hapart : a.Apart b) (h : d.Free b)
    (hwrite : d.performAll (Session.chunkEffects a chunk) = (d', .ok ())) : d'.Free b := by
  have hchanges := Session.chunkEffects_changes hwrite
  refine ⟨fun path number hpath hfile => ?_, fun name => ?_⟩
  · rcases hchanges.new _ _ hfile with hold | ⟨hinside | ⟨-, hnode⟩, -⟩
    · exact h.way path number hpath hold
    · exact hapart.1 (hinside.trans hpath)
    · cases hnode
  · rw [Option.eq_none_iff_forall_ne_some]
    intro node hnode
    rcases hchanges.new _ _ hnode with hold | ⟨hinside | ⟨hway, -⟩, -⟩
    · rw [h.inside name] at hold
      cases hold
    · rcases List.prefix_concat_iff.mp hinside with heq | hprefix
      · exact hapart.2 (heq ▸ List.prefix_append ..)
      · exact hapart.1 hprefix
    · exact hapart.2 ((List.prefix_append ..).trans hway)

theorem exists_writes (hr : d.Reliable) (hfree : ∀ p ∈ written, d.Free p.1.directory)
    (hapart : written.Pairwise fun p q => p.1.directory.Apart q.1.directory)
    (hids : ∀ p ∈ written, p.2.columnIds.Nodup) :
    ∃ d', d.performAll (writes written) = (d', .ok ()) := by
  induction written generalizing d with
  | nil => exact ⟨d, rfl⟩
  | cons p rest ih =>
      rw [List.forall_mem_cons] at hfree hids
      rw [List.pairwise_cons] at hapart
      rcases Session.chunkEffects_made hr hfree.1 hids.1 with ⟨d₁, hfirst⟩
      have hleft : ∀ q ∈ rest, d₁.Free q.1.directory := fun q hq =>
        free_of_apart (hapart.1 q hq) (hfree.2 q hq) hfirst
      rcases ih ((Session.chunkEffects_changes hfirst).reliable hr) hleft hapart.2 hids.2 with
        ⟨d', hrest⟩
      exact ⟨d', Disk.performAll_append_eq_ok.mpr ⟨d₁, hfirst, hrest⟩⟩

/-! ### Reading -/

-- The two files of a column of a chunk whose files can be read.
theorem Encodes.read (he : Encodes layout p)
    (hread : ∀ f ∈ Session.chunkFiles p.1.directory p.2.columns, d.read f.1 = .ok f.2)
    {column : Nat} (hcolumn : column ∈ p.2.columnIds) :
    d.read ((stored p).indexPath column) =
        .ok (Column.encode (layout column) p.1.options (p.1.documents column)).index ∧
      d.read ((stored p).dataPath column) =
        .ok (Column.encode (layout column) p.1.options (p.1.documents column)).data := by
  rcases List.mem_map.mp hcolumn with ⟨f, hf, rfl⟩
  rw [← he.files f hf]
  exact ⟨hread _ (Session.mem_chunkFiles.mpr ⟨f, hf, Or.inr rfl⟩),
    hread _ (Session.mem_chunkFiles.mpr ⟨f, hf, Or.inl rfl⟩)⟩

theorem covered_columns (hw : p.1.WellFormed layout) (he : Encodes layout p)
    (hread : ∀ f ∈ Session.chunkFiles p.1.directory p.2.columns, d.read f.1 = .ok f.2) :
    (stored p).Covered d := by
  intro column hcolumn
  have hsmall := hw.small column ((he.touched column).mp hcolumn)
  have htiles := Column.indexOf_tiles (layout column) p.1.options (p.1.documents column)
  have hcount : (p.1.documents column).length = (stored p).info.recordCount := by
    rw [documents, List.length_map, ← he.count]
    rfl
  rw [hcount] at htiles
  rcases he.read hread hcolumn with ⟨hindex, hdata⟩
  exact ⟨_, _, _, hindex, Column.decode_index hsmall, hdata, htiles⟩

-- A record that did not touch a column has nothing in it.
theorem documents_of_not_mem {column : Nat} (h : column ∉ b.columns) :
    b.documents column = List.replicate b.records.length [] := by
  rw [List.eq_replicate_iff, documents, List.length_map]
  refine ⟨rfl, fun entries hentries => ?_⟩
  rcases List.mem_map.mp hentries with ⟨streams, hstreams, rfl⟩
  have hmiss : ¬ (streams.find? column).isSome = true := fun hsome =>
    h (mem_columns.mpr ⟨streams, hstreams, hsome⟩)
  rw [ChunkBuffer.entriesIn, Option.not_isSome_iff_eq_none.mp hmiss, Option.getD_none]

/-- What is at the places of the pages of batches. -/
def bodies (layout : Nat → PageLayout) (batches : List Batch) (key : PageKey) :
    Option (List UInt8) :=
  (batches.find? fun b => b.chunk = key.chunk).bind fun b =>
    (Column.pack (layout key.column) b.options.targetPageSize (b.documents key.column))[key.page]?.map
      (Page.body (layout key.column))

theorem find?_chunk {batches : List Batch} (h : (batches.map (·.chunk)).Nodup) (hb : b ∈ batches) :
    (batches.find? fun other => other.chunk = b.chunk) = some b := by
  induction batches with
  | nil => cases hb
  | cons first rest ih =>
      rw [List.map_cons, List.nodup_cons] at h
      rcases List.mem_cons.mp hb with rfl | hb
      · exact List.find?_cons_of_pos (decide_eq_true rfl)
      · have hne : first.chunk ≠ b.chunk := fun heq =>
          h.1 (List.mem_map.mpr ⟨b, hb, heq.symm⟩)
        rw [List.find?_cons_of_neg (by simpa only [decide_eq_true_eq] using hne), ih h.2 hb]

theorem gives_column {batches : List Batch} (hdistinct : (batches.map (·.chunk)).Nodup)
    (hb : p.1 ∈ batches) (hw : p.1.WellFormed layout) (he : Encodes layout p)
    (hread : ∀ f ∈ Session.chunkFiles p.1.directory p.2.columns, d.read f.1 = .ok f.2)
    (column : Nat) :
    (stored p).Gives d (bodies layout batches) column (layout column) (p.1.documents column) := by
  by_cases hcolumn : column ∈ p.2.columnIds
  · have hin := (he.touched column).mp hcolumn
    have hsmall := hw.small column hin
    rcases he.read hread hcolumn with ⟨hindex, hdata⟩
    have hcount : (stored p).info.recordCount = (p.1.documents column).length := by
      rw [documents, List.length_map, ← he.count]
      rfl
    refine .stored (List.contains_iff_mem.mpr hcolumn) hcount hindex hdata hsmall
      (hsmall.wellFormed (hw.levels column hin).1 (hw.levels column hin).2
        (hw.within column hin)) fun n page hpage => ?_
    have hchunk : (batches.find? fun b => b.chunk = (stored p).info.chunk) = some p.1 :=
      find?_chunk hdistinct hb
    rw [bodies, hchunk, Option.bind_some, hpage, Option.map_some]
  · have hmissing : (stored p).info.columns.contains column = false := by
      rw [← Bool.not_eq_true, List.contains_iff_mem]
      exact hcolumn
    rw [documents_of_not_mem fun hin => hcolumn ((he.touched column).mpr hin), ← he.count]
    exact .missing hmissing

end

-- The batches and their files together, one by one.
theorem encodes_zip {batches : List Batch} (hw : ∀ b ∈ batches, b.WellFormed layout)
    {chunks : List EncodedChunk} (h : batches.mapM encoded = .ok chunks) :
    (batches.zip chunks).map (·.1) = batches ∧
      ∀ p ∈ batches.zip chunks, p.1 ∈ batches ∧ Encodes layout p := by
  have hall := Outcome.mapM_eq_ok.mp h
  refine ⟨List.map_fst_zip (Nat.le_of_eq hall.length_eq), fun p hp => ?_⟩
  rcases p with ⟨b, chunk⟩
  have hb := (List.of_mem_zip hp).1
  have hchunk : b.encoded = .ok chunk := (List.forall₂_iff_zip.mp hall).2 hp
  rcases (hw b hb).exists_encoded with ⟨chunk', hchunk', he⟩
  rw [hchunk, Except.ok.injEq] at hchunk'
  subst hchunk'
  exact ⟨hb, he⟩

/-- Batches with different numbers become chunks, which can be written where nothing is in the
    way. Wherever they could be written, the index of each column covers its file and the
    documents, and cursors over the chunks that are asked in turns give, each at its own turns
    and whatever is kept of pages, what every record had in the column, and then nothing. -/
theorem read_back {batches : List Batch} (hdistinct : (batches.map (·.chunk)).Nodup)
    (hw : ∀ b ∈ batches, b.WellFormed layout) :
    ∃ chunks, batches.mapM encoded = .ok chunks ∧
      (∀ d : Disk, d.Reliable → (∀ b ∈ batches, d.Free b.directory) →
        batches.Pairwise (fun a b => a.directory.Apart b.directory) →
          ∃ d', d.performAll (writes (batches.zip chunks)) = (d', .ok ())) ∧
      ∀ d d' : Disk, d.performAll (writes (batches.zip chunks)) = (d', .ok ()) →
        (∀ p ∈ batches.zip chunks,
          p.2.recordCount = p.1.records.length ∧ (stored p).Covered d') ∧
        ∀ (backend : ReadBackend) (capacity : Nat) (columns : Nat → Nat) (turns : List Nat)
          (k i : Nat), turns[k]? = some i →
            (Cursor.serve (fun i => Cursor.ofChunks (columns i) (layout (columns i))
              ((batches.zip chunks).map stored)) (Volume.ofDisk d' backend capacity) turns)[k]? =
                some (.ok (batches.flatMap fun b =>
                  b.documents (columns i))[(turns.take k).count i]?) := by
  rcases Outcome.exists_mapM_ok fun b hb => (hw b hb).exists_encoded.imp fun _ h => h.1 with
    ⟨chunks, hchunks⟩
  rcases encodes_zip hw hchunks with ⟨hbatches, hpairs⟩
  refine ⟨chunks, hchunks, fun d hr hfree hapart => ?_, fun d d' hwrites => ?_⟩
  · rw [← hbatches, List.pairwise_map] at hapart
    exact exists_writes hr (fun p hp => hfree p.1 (hpairs p hp).1) hapart
      fun p hp => (hpairs p hp).2.distinct
  · have hread : ∀ p ∈ batches.zip chunks, ∀ f ∈ Session.chunkFiles p.1.directory p.2.columns,
        d'.read f.1 = .ok f.2 := fun p hp f hf => (writes_since hwrites p hp f hf).read
    refine ⟨fun p hp => ⟨(hpairs p hp).2.count,
      covered_columns (hw p.1 (hpairs p hp).1) (hpairs p hp).2 (hread p hp)⟩, ?_⟩
    intro backend capacity columns turns k i hk
    have hgives : ∀ column, List.Forall₂
        (DiskChunk.Gives d' (bodies layout batches) column (layout column))
        ((batches.zip chunks).map stored) (batches.map (·.documents column)) := by
      intro column
      have hsame : batches.map (·.documents column) =
          (batches.zip chunks).map fun p => p.1.documents column := by
        conv_lhs => rw [← hbatches, List.map_map]
        rfl
      rw [hsame, List.forall₂_map_left_iff, List.forall₂_map_right_iff, List.forall₂_same]
      exact fun p hp => gives_column hdistinct (hpairs p hp).1 (hw p.1 (hpairs p hp).1)
        (hpairs p hp).2 (hread p hp) column
    have hnone : (Volume.ofDisk d' backend capacity).Right (bodies layout batches) :=
      fun key body hkey => by
        rw [Volume.ofDisk, Std.HashMap.getElem?_empty] at hkey
        cases hkey
    exact Cursor.serve_spec (fun i => Cursor.ahead_ofChunks (hgives (columns i))) rfl hnone hk

/-- The levels of a column of numbers, and of one of lists of names. -/
def numbersAndNames (column : Nat) : PageLayout :=
  if column = 0 then ⟨0, 1⟩ else ⟨1, 2⟩

/-- Two batches: a number that comes with the second record only, in front of which there are
    names, and a single number. -/
def lateNumbers : List Batch :=
  [⟨4, ["a"], [.ofList [(1, [⟨some (.string "x"), 0, 2⟩, ⟨none, 1, 1⟩])],
      .ofList [(0, [⟨some (.int 5), 0, 1⟩])]],
    ⟨[("n", .leaf 0 .integer), ("m", .array (.leaf 1 .string))], 2⟩, ⟨1, .none⟩⟩,
   ⟨2, ["b"], [.ofList [(0, [⟨some (.int 7), 0, 1⟩])]], ⟨[("n", .leaf 0 .integer)], 1⟩, ⟨64, .none⟩⟩]

theorem read_back_late : ∃ chunks d', lateNumbers.mapM encoded = .ok chunks ∧
    Disk.empty.performAll (writes (lateNumbers.zip chunks)) = (d', .ok ()) ∧
      (Cursor.serve (fun i => Cursor.ofChunks i (numbersAndNames i)
        ((lateNumbers.zip chunks).map stored)) (Volume.ofDisk d' .positioned 1)
          [0, 1, 0, 0, 0])[3]? = some (.ok (some [⟨some (.int 7), 0, 1⟩])) := by
  have hw : ∀ b ∈ lateNumbers, b.WellFormed numbersAndNames := by
    intro b hb
    rcases List.mem_cons.mp hb with rfl | hb
    · exact ⟨by decide, by decide, by decide, by decide, by decide⟩
    · rw [List.mem_singleton.mp hb]
      exact ⟨by decide, by decide, by decide, by decide, by decide⟩
  have hfree : ∀ b ∈ lateNumbers, Disk.empty.Free b.directory := by
    intro b hb
    have hway : ∀ (path : Path) (number : Nat), Disk.empty.node? path ≠ some (.file number) := by
      intro path number hfile
      rw [Disk.node?] at hfile
      split at hfile
      · cases hfile
      · cases hfile
    refine ⟨fun path number _ => hway path number, fun name => ?_⟩
    rcases List.mem_cons.mp hb with rfl | hb
    · rfl
    · rw [List.mem_singleton.mp hb]
      rfl
  rcases @read_back numbersAndNames lateNumbers (by decide) hw with
    ⟨chunks, hchunks, hwrites, hreads⟩
  rcases hwrites Disk.empty rfl hfree (by decide) with ⟨d', hd'⟩
  exact ⟨chunks, d', hchunks, hd', (hreads Disk.empty d' hd').2 .positioned 1 id _ 3 0 rfl⟩

end Batch

end NestedColumns
