import NestedColumns.Proofs.IdMap
import NestedColumns.Proofs.Outcome
import NestedColumns.Proofs.Schema.Leaves

/-!
# Documents on their way to a chunk

A buffer holds the streams of its documents column by column, each list up to the last
document that touched the column. Filled up with documents that do not, it has the
stream of every document, or the empty one, in order. These are what the files of a
chunk are written from.

## Main definitions

* `ChunkBuffer.entriesIn`: What a document has in a column.
* `ChunkBuffer.Holds`: A buffer has the streams of some documents.

## Theorems

* `ChunkBuffer.Holds.append`, `ChunkBuffer.Holds.foldl`: One more document, and several.
* `ChunkBuffer.Holds.exists_encode`, `ChunkBuffer.Holds.encode_spec`: The files of a chunk.
-/

namespace NestedColumns

namespace ChunkBuffer

open Shredding (Streams)

/-- What a document has in a column, which is nothing if it did not touch it. -/
def entriesIn (column : Nat) (streams : Streams) : List Triple :=
  (streams.find? column).getD []

/-- A buffer has the streams of some documents, and lists the columns that any of them
    touched. -/
structure Holds (b : ChunkBuffer) (documents : List Streams) : Prop where
  count : b.recordCount = documents.length
  records : ∀ column, (padTo documents.length ((b.columns.find? column).getD #[])).toList =
    documents.map (entriesIn column)
  listed : ∀ column, (b.columns.find? column).isSome = true ↔
    ∃ streams ∈ documents, (streams.find? column).isSome = true

theorem holds_empty : empty.Holds [] where
  count := rfl
  records := fun _ => rfl
  listed := fun column => by
    simp only [empty, IdMap.find?_empty, Option.isSome_none, Bool.false_eq_true, List.not_mem_nil,
      false_and, exists_false]

-- The numbers of the streams are different, so each column is changed once.
theorem find?_foldl (count : Nat) (columns : IdMap (Array (List Triple)))
    {entries : List (Nat × List Triple)} (h : entries.Pairwise (·.1 < ·.1)) (column : Nat) :
    (entries.foldl (fun columns (id, stream) =>
        columns.insert id ((padTo count ((columns.find? id).getD #[])).push stream))
      columns).find? column =
      match IdMap.findIn column entries with
      | some stream => some ((padTo count ((columns.find? column).getD #[])).push stream)
      | none => columns.find? column := by
  induction entries generalizing columns with
  | nil => rfl
  | cons e rest ih =>
      rcases e with ⟨id, stream⟩
      rw [List.pairwise_cons] at h
      rw [List.foldl_cons, ih _ h.2, IdMap.findIn, IdMap.find?_insert]
      by_cases hid : id = column
      · have hnone : IdMap.findIn column rest = none := by
          rw [Option.eq_none_iff_forall_ne_some]
          intro other hother
          have hlater := h.1 _ ((IdMap.findIn_eq_some_iff h.2).mp hother)
          exact Nat.lt_irrefl column (hid ▸ hlater)
        rw [if_pos hid, if_pos hid, hnone, hid]
      · rw [if_neg hid, if_neg hid]

theorem find?_addStreams (count : Nat) (columns : IdMap (Array (List Triple)))
    (streams : Streams) (column : Nat) :
    (addStreams count columns streams).find? column =
      match streams.find? column with
      | some stream => some ((padTo count ((columns.find? column).getD #[])).push stream)
      | none => columns.find? column :=
  find?_foldl count columns streams.ascending column

theorem size_padTo (count : Nat) (records : Array (List Triple)) :
    (padTo count records).size = max count records.size := by
  rw [padTo, Array.size_append, Array.size_replicate]
  omega

theorem Holds.append {b : ChunkBuffer} {documents : List Streams} (h : b.Holds documents)
    (streams : Streams) : (b.append streams).Holds (documents ++ [streams]) where
  count := by
    rw [ChunkBuffer.append, h.count, List.length_append, List.length_singleton]
  records := fun column => by
    have hold := h.records column
    have hsize := congrArg List.length hold
    rw [Array.length_toList, size_padTo, List.length_map] at hsize
    rw [ChunkBuffer.append, find?_addStreams, h.count, List.map_append, ← hold, List.map_singleton,
      entriesIn, List.length_append, List.length_singleton]
    cases streams.find? column with
    | some stream =>
        -- The column has the stream of every document by now.
        have hfull : ((padTo documents.length ((b.columns.find? column).getD #[])).push stream).size =
            documents.length + 1 := by
          rw [Array.size_push, size_padTo, hsize]
        rw [Option.getD_some, padTo, hfull, Nat.sub_self, Array.replicate_zero, Array.append_empty,
          Array.toList_push, Option.getD_some]
    | none =>
        have hmore : documents.length + 1 - ((b.columns.find? column).getD #[]).size =
            documents.length - ((b.columns.find? column).getD #[]).size + 1 := by omega
        rw [padTo, hmore, Array.toList_append, Array.toList_replicate, List.replicate_succ',
          ← List.append_assoc, padTo, Array.toList_append, Array.toList_replicate, Option.getD_none]
  listed := fun column => by
    rw [ChunkBuffer.append, find?_addStreams]
    simp only [List.mem_append, List.mem_singleton, or_and_right, exists_or, exists_eq_left]
    rw [← h.listed column]
    cases streams.find? column with
    | some stream => simp only [Option.isSome_some, or_true]
    | none => simp only [Option.isSome_none, Bool.false_eq_true, or_false]

theorem Holds.foldl {b : ChunkBuffer} {documents : List Streams} (h : b.Holds documents)
    (more : List Streams) : (more.foldl ChunkBuffer.append b).Holds (documents ++ more) := by
  induction more generalizing b documents with
  | nil =>
      rw [List.append_nil]
      exact h
  | cons streams more ih =>
      have hmore := ih (h.append streams)
      rwa [List.append_assoc] at hmore

/-! ### The files of a chunk -/

/-- A file holds what documents have in a column, by the levels of a leaf of the schema. -/
def Written (schema : Schema) (options : ColumnOptions) (documents : List Streams)
    (p : Nat × EncodedColumn) : Prop :=
  ∃ leaf, leaf? schema p.1 = some leaf ∧
    p.2 = Column.encode ⟨leaf.maxRep, leaf.maxDef⟩ options (documents.map (entriesIn p.1))

variable {b : ChunkBuffer} {documents : List Streams} {schema : Schema} {options : ColumnOptions}

theorem encodeColumns_spec (h : b.Holds documents) {entries : List (Nat × Array (List Triple))}
    (hin : ∀ e ∈ entries, b.columns.find? e.1 = some e.2)
    (hleaf : ∀ e ∈ entries, ∃ leaf, leaf? schema e.1 = some leaf) :
    ∃ columns, encodeColumns b schema options entries = .ok columns ∧
      columns.map (·.1) = entries.map (·.1) ∧
      ∀ p ∈ columns, Written schema options documents p := by
  induction entries with
  | nil => exact ⟨[], rfl, rfl, fun p hp => absurd hp List.not_mem_nil⟩
  | cons e rest ih =>
      rcases e with ⟨id, records⟩
      rcases hleaf _ List.mem_cons_self with ⟨leaf, hleaf'⟩
      rcases ih (fun e he => hin e (List.mem_cons_of_mem _ he))
        (fun e he => hleaf e (List.mem_cons_of_mem _ he)) with ⟨columns, hrest, hids, hwritten⟩
      have hrecords := h.records id
      rw [hin _ List.mem_cons_self, Option.getD_some, ← h.count] at hrecords
      refine ⟨(id, Column.encode ⟨leaf.maxRep, leaf.maxDef⟩ options
        (documents.map (entriesIn id))) :: columns, ?_, ?_, ?_⟩
      · rw [encodeColumns]
        simp only [hleaf', hrecords]
        exact Outcome.bind_eq_ok.mpr ⟨columns, hrest, rfl⟩
      · rw [List.map_cons, List.map_cons, hids]
      · intro p hp
        rcases List.mem_cons.mp hp with rfl | hp
        · exact ⟨leaf, hleaf', rfl⟩
        · exact hwritten p hp

-- A chunk can be written if each column that a document touched is one of the schema.
theorem Holds.exists_encode (h : b.Holds documents)
    (hc : ∀ streams ∈ documents, ∀ column, (streams.find? column).isSome = true →
      ∃ leaf, leaf? schema column = some leaf) :
    ∃ chunk, b.encode schema options = .ok chunk ∧ chunk.recordCount = documents.length ∧
      chunk.columnIds.Nodup ∧
      (∀ column, column ∈ chunk.columnIds ↔
        ∃ streams ∈ documents, (streams.find? column).isSome = true) ∧
      ∀ p ∈ chunk.columns, Written schema options documents p := by
  have hin : ∀ e ∈ b.columns.entries, b.columns.find? e.1 = some e.2 :=
    fun e he => IdMap.find?_eq_some_iff.mpr he
  have hleaf : ∀ e ∈ b.columns.entries, ∃ leaf, leaf? schema e.1 = some leaf := by
    intro e he
    have hlisted : (b.columns.find? e.1).isSome = true := by
      rw [hin e he]
      rfl
    rcases (h.listed e.1).mp hlisted with ⟨streams, hstreams, hsome⟩
    exact hc streams hstreams e.1 hsome
  have hcolumns : ∃ columns, encodeColumns b schema options b.columns.entries = .ok columns ∧
      columns.map (·.1) = b.columns.entries.map (·.1) ∧
        ∀ p ∈ columns, Written schema options documents p := encodeColumns_spec h hin hleaf
  rcases hcolumns with ⟨columns, heq, hids, hwritten⟩
  have hchunk : (EncodedChunk.mk b.recordCount columns).columnIds = b.columns.ids := hids
  refine ⟨⟨b.recordCount, columns⟩, Outcome.map_eq_ok.mpr ⟨columns, heq, rfl⟩, h.count, ?_, ?_,
    hwritten⟩
  · rw [hchunk]
    exact List.Pairwise.imp Nat.ne_of_lt (List.pairwise_map.mpr b.columns.ascending)
  · intro column
    rw [hchunk, ← h.listed column, ← not_iff_not, ← IdMap.find?_eq_none_iff,
      Option.not_isSome_iff_eq_none]

-- Nothing that was taken apart by the schema, or by one it has grown from, keeps a chunk
-- from being written.
theorem Holds.encode_spec {limit : Nat} (h : b.Holds documents) (hs : schema.Sound limit)
    (hc : ∀ streams ∈ documents, ∀ column, (streams.find? column).isSome = true →
      column ∈ schema.root.columns) :
    ∃ chunk, b.encode schema options = .ok chunk ∧ chunk.recordCount = documents.length ∧
      chunk.columnIds.Nodup ∧
      (∀ column, column ∈ chunk.columnIds ↔
        ∃ streams ∈ documents, (streams.find? column).isSome = true) ∧
      ∀ p ∈ chunk.columns, Written schema options documents p := by
  refine h.exists_encode fun streams hstreams column hsome => ?_
  rcases Schema.Node.exists_way hs.names (hc streams hstreams column hsome) with ⟨way, type, hw⟩
  rcases exists_leaf? hs hw with ⟨leaf, hleaf, -⟩
  exact ⟨leaf, hleaf⟩

end ChunkBuffer

end NestedColumns
