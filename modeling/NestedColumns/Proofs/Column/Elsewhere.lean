import NestedColumns.Proofs.Column.Caching
import NestedColumns.Proofs.Column.Untouched
import NestedColumns.Proofs.Disk.Replacing

/-!
# Reading on another disk

Reading looks at the indexes of the chunks and at their column files, and at nothing else. On a
disk on which these are the same it gives the same answers and keeps the same pages, errors
included, whatever happened to the rest of the disk, and whatever is in these files.

## Main definitions

* `Cursor.SameOn`: What a cursor may look at is the same on two disks.
* `Volume.onDisk`: What was read, with another disk.

## Theorems

* `ColumnReader.nextFrom_onDisk`, `Cursor.next_onDisk`: The next document of a column.
* `RecordReader.all_onDisk`: All records.
-/

namespace NestedColumns

/-- The file of an open column is the same on two disks. -/
def OpenColumn.SameOn (d d' : Disk) (c : OpenColumn) : Prop :=
  ∀ number, c.file = some number → d'.contentsOf number = d.contentsOf number

/-- The files of a column of a chunk are the same on two disks. -/
structure DiskChunk.SameOn (d d' : Disk) (column : Nat) (chunk : DiskChunk) : Prop where
  index : d.SameAt d' (chunk.indexPath column)
  data : d.SameAt d' (chunk.dataPath column)

/-- What a cursor may look at is the same on two disks. -/
structure Cursor.SameOn (d d' : Disk) (c : Cursor) : Prop where
  chunks : ∀ chunk ∈ c.chunks, chunk.SameOn d d' c.column
  reader : ∀ reader, c.state = .reading reader → reader.column.SameOn d d'

variable {d d' : Disk} {v : Volume}

namespace Volume

/-- What was read, with another disk afterwards. -/
def onDisk {α : Type} (d' : Disk) (r : Volume × α) : Volume × α :=
  (r.1.setDisk d', r.2)

theorem openColumn_onDisk {chunk : DiskChunk} {column : Nat}
    (h : chunk.SameOn v.disk d' column) :
    (v.setDisk d').openColumn chunk column = v.openColumn chunk column := by
  have hread : (v.setDisk d').disk.read (chunk.indexPath column) =
      v.disk.read (chunk.indexPath column) := h.index.read
  have hnode : (v.setDisk d').disk.node? (chunk.dataPath column) =
      v.disk.node? (chunk.dataPath column) := h.data.1
  rw [openColumn, openColumn, hread, hnode]

-- A column that is opened is the file at its path.
theorem sameOn_of_openColumn {chunk : DiskChunk} {column : Nat} {c : OpenColumn}
    (h : chunk.SameOn v.disk d' column) (hopen : v.openColumn chunk column = .ok (some c)) :
    c.SameOn v.disk d' := by
  intro number hfile
  refine h.data.2 number ?_
  rw [openColumn] at hopen
  split at hopen
  · cases hopen
  · rcases Outcome.bind_eq_ok.mp hopen with ⟨bytes, -, hrest⟩
    rcases Outcome.bind_eq_ok.mp hrest with ⟨index, -, hlast⟩
    clear hopen hrest
    simp only at hlast
    split at hlast
    · cases hlast
    · rcases hnode : v.disk.node? (chunk.dataPath column) with _ | _ | other
      · rw [hnode] at hlast
        cases hlast
      · rw [hnode] at hlast
        cases hlast
        cases hfile
      · rw [hnode] at hlast
        cases hlast
        cases hfile
        rfl

theorem page_onDisk {column : OpenColumn} (h : column.SameOn v.disk d') (number : Nat)
    (entry : PageEntry) :
    (v.setDisk d').page column number entry = onDisk d' (v.page column number entry) := by
  have hload : (v.setDisk d').loadPage column.file entry = v.loadPage column.file entry := by
    cases hfile : column.file with
    | none => rfl
    | some file =>
        have hbackend : (v.setDisk d').backend = v.backend := rfl
        have hcontents : (v.setDisk d').disk.contentsOf file = v.disk.contentsOf file :=
          h file hfile
        exact loadPage_congr hbackend hcontents entry
  rw [page, page, hload]
  have hpages : (v.setDisk d').pages = v.pages := rfl
  have hcapacity : (v.setDisk d').capacity = v.capacity := rfl
  rw [hpages, hcapacity]
  cases v.pages[(⟨column.chunk, column.column, number⟩ : PageKey)]? with
  | some body => rfl
  | none =>
      cases v.loadPage column.file entry with
      | error e => rfl
      | ok body =>
          by_cases hcapacity : v.capacity = 0
          · simp only [if_pos hcapacity]
            rfl
          · simp only [if_neg hcapacity]
            rfl

end Volume

open Volume (onDisk)

namespace ColumnReader

-- The induction is on the pages that are left.
theorem nextFrom_onDisk {column : OpenColumn} (layout : PageLayout)
    (pages : List (Nat × PageEntry)) (records : List (List Triple))
    (h : column.SameOn v.disk d') :
    nextFrom (v.setDisk d') column layout pages records =
        onDisk d' (nextFrom v column layout pages records) ∧
      (nextFrom v column layout pages records).2.2.column = column := by
  induction pages generalizing v records with
  | nil => cases records <;> exact ⟨rfl, rfl⟩
  | cons page pages ih =>
      rcases page with ⟨number, entry⟩
      cases records with
      | cons record rest => exact ⟨rfl, rfl⟩
      | nil =>
          have hdisk := v.page_disk column number entry
          rw [nextFrom, nextFrom, Volume.page_onDisk h]
          rcases hread : v.page column number entry with ⟨v₁, result⟩
          rw [hread] at hdisk
          cases result with
          | error e => exact ⟨rfl, rfl⟩
          | ok body =>
              simp only [onDisk]
              cases hdecode : Page.decode layout body with
              | error e => exact ⟨rfl, rfl⟩
              | ok records => exact ih records (hdisk ▸ h)

theorem next_onDisk {r : ColumnReader} (h : r.column.SameOn v.disk d') :
    r.next (v.setDisk d') = onDisk d' (r.next v) ∧ (r.next v).2.2.column = r.column :=
  nextFrom_onDisk r.layout r.pages r.records h

end ColumnReader

namespace Cursor

-- The induction is on the chunks that are left.
theorem nextChunk_onDisk {column : Nat} (layout : PageLayout) {chunks : List DiskChunk}
    (h : ∀ chunk ∈ chunks, chunk.SameOn v.disk d' column) :
    nextChunk (v.setDisk d') column layout chunks =
        onDisk d' (nextChunk v column layout chunks) ∧
      (nextChunk v column layout chunks).2.2.SameOn v.disk d' := by
  induction chunks generalizing v with
  | nil => exact ⟨rfl, fun _ hchunk => absurd hchunk List.not_mem_nil, fun _ hstate => by cases hstate⟩
  | cons chunk chunks ih =>
      have hchunk := h chunk List.mem_cons_self
      have hrest := fun c hc => h c (List.mem_cons_of_mem _ hc)
      rw [nextChunk, nextChunk, Volume.openColumn_onDisk hchunk]
      cases hopen : v.openColumn chunk column with
      | error e => exact ⟨rfl, hrest, fun _ hstate => by cases hstate⟩
      | ok opened =>
          cases opened with
          | none =>
              cases hcount : chunk.info.recordCount with
              | zero => exact ih hrest
              | succ remaining => exact ⟨rfl, hrest, fun _ hstate => by cases hstate⟩
          | some c =>
              have hcolumn := Volume.sameOn_of_openColumn hchunk hopen
              have hdisk := (ColumnReader.ofColumn c layout).next_disk v
              have hnext := ColumnReader.next_onDisk (r := ColumnReader.ofColumn c layout) hcolumn
              simp only
              rw [hnext.1]
              replace hnext := hnext.2
              rcases hread : (ColumnReader.ofColumn c layout).next v with ⟨v₁, result, reader⟩
              rw [hread] at hdisk hnext
              have hreading : Cursor.SameOn v.disk d' ⟨column, layout, chunks, .reading reader⟩ :=
                ⟨hrest, fun other hstate => by
                  cases hstate
                  rw [hnext]
                  exact hcolumn⟩
              rcases result with e | _ | record
              · exact ⟨rfl, hreading⟩
              · have hmore := ih (v := v₁) (hdisk ▸ hrest)
                rw [hdisk] at hmore
                exact hmore
              · exact ⟨rfl, hreading⟩

/-- The next document of a column is the same on another disk. -/
theorem next_onDisk {c : Cursor} (h : c.SameOn v.disk d') :
    c.next (v.setDisk d') = onDisk d' (c.next v) ∧ (c.next v).2.2.SameOn v.disk d' := by
  have hchunks := nextChunk_onDisk (v := v) c.layout h.chunks
  rw [next, next]
  cases hstate : c.state with
  | idle => exact hchunks
  | missing remaining =>
      cases remaining with
      | zero => exact hchunks
      | succ remaining => exact ⟨rfl, h.chunks, fun _ hother => by cases hother⟩
  | reading reader =>
      have hcolumn := h.reader reader hstate
      have hdisk := reader.next_disk v
      have hnext := ColumnReader.next_onDisk hcolumn
      simp only
      rw [hnext.1]
      replace hnext := hnext.2
      rcases hread : reader.next v with ⟨v₁, result, reader'⟩
      rw [hread] at hdisk hnext
      have hreading : Cursor.SameOn v.disk d' ⟨c.column, c.layout, c.chunks, .reading reader'⟩ :=
        ⟨h.chunks, fun other hother => by
          cases hother
          rw [hnext]
          exact hcolumn⟩
      rcases result with e | _ | record
      · exact ⟨rfl, hreading⟩
      · have hmore := nextChunk_onDisk (v := v₁) c.layout (hdisk ▸ h.chunks)
        rw [hdisk] at hmore
        exact hmore
      · exact ⟨rfl, hreading⟩

end Cursor

namespace RecordReader

-- The induction is on the cursors that are left.
theorem stepCursors_onDisk {cursors : List Cursor} (h : ∀ c ∈ cursors, c.SameOn v.disk d') :
    stepCursors (v.setDisk d') cursors = onDisk d' (stepCursors v cursors) ∧
      ∀ c ∈ (stepCursors v cursors).2.2, c.SameOn v.disk d' := by
  induction cursors generalizing v with
  | nil => exact ⟨rfl, h⟩
  | cons cursor rest ih =>
      have hdisk := cursor.next_disk v
      have hfirst := Cursor.next_onDisk (h cursor List.mem_cons_self)
      have hlater := fun c hc => h c (List.mem_cons_of_mem _ hc)
      rw [stepCursors, stepCursors, hfirst.1]
      replace hfirst := hfirst.2
      rcases hnext : cursor.next v with ⟨v₁, result, cursor'⟩
      rw [hnext] at hdisk hfirst
      cases result with
      | error e => exact ⟨rfl, List.forall_mem_cons.mpr ⟨hfirst, hlater⟩⟩
      | ok triples =>
          have hrest := ih (v := v₁) (hdisk ▸ hlater)
          rw [hdisk] at hrest
          simp only [onDisk]
          rw [hrest.1]
          replace hrest := hrest.2
          rcases hstep : stepCursors v₁ rest with ⟨v₂, others, rest'⟩
          rw [hstep] at hrest
          cases others with
          | error e => exact ⟨rfl, List.forall_mem_cons.mpr ⟨hfirst, hrest⟩⟩
          | ok others => exact ⟨rfl, List.forall_mem_cons.mpr ⟨hfirst, hrest⟩⟩

theorem next_onDisk {r : RecordReader} (h : ∀ c ∈ r.cursors, c.SameOn v.disk d') :
    r.next (v.setDisk d') = onDisk d' (r.next v) ∧
      ∀ c ∈ (r.next v).2.2.cursors, c.SameOn v.disk d' := by
  rw [next, next]
  by_cases hend : r.total ≤ r.emitted
  · rw [if_pos hend, if_pos hend]
    exact ⟨rfl, h⟩
  · have hstep := stepCursors_onDisk h
    rw [if_neg hend, if_neg hend, hstep.1]
    replace hstep := hstep.2
    rcases hcursors : stepCursors v r.cursors with ⟨v₁, result, cursors⟩
    rw [hcursors] at hstep
    cases result with
    | error e => exact ⟨rfl, hstep⟩
    | ok documents =>
        simp only [onDisk]
        split
        · exact ⟨rfl, hstep⟩
        · exact ⟨rfl, hstep⟩

-- The induction is on how many records are read.
theorem take_onDisk {n : Nat} {r : RecordReader} (h : ∀ c ∈ r.cursors, c.SameOn v.disk d') :
    take n r (v.setDisk d') = onDisk d' (take n r v) := by
  induction n generalizing r v with
  | zero => rfl
  | succ n ih =>
      have hdisk := r.next_disk v
      have hfirst := next_onDisk h
      rw [take, take, hfirst.1]
      replace hfirst := hfirst.2
      rcases hnext : r.next v with ⟨v₁, result, r'⟩
      rw [hnext] at hdisk hfirst
      rcases result with e | _ | record
      · rfl
      · rfl
      · simp only [onDisk]
        rw [ih (hdisk.symm ▸ hfirst)]
        rcases take n r' v₁ with ⟨v₂, others⟩
        cases others <;> rfl

/-- All records are the same on another disk. -/
theorem all_onDisk {r : RecordReader} (h : ∀ c ∈ r.cursors, c.SameOn v.disk d') :
    r.all (v.setDisk d') = onDisk d' (r.all v) :=
  take_onDisk h

end RecordReader

end NestedColumns
