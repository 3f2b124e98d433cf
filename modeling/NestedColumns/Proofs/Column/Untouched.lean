import NestedColumns.RecordReader
import NestedColumns.Store.Export

/-!
# Reading leaves the disk alone

Whether records can be read or not, and however far their cursors come, reading changes
only which pages are kept. Nothing is assumed of the disk here.

## Theorems

* `Volume.page_disk`: Reading a page.
* `Cursor.next_disk`: A step of a cursor.
* `RecordReader.all_disk`: Reading all records.
* `Store.records_eq`: The records of a table.
-/

namespace NestedColumns

theorem Volume.page_disk (v : Volume) (column : OpenColumn) (number : Nat) (entry : PageEntry) :
    (v.page column number entry).1.disk = v.disk := by
  rw [page]
  cases v.pages[(⟨column.chunk, column.column, number⟩ : PageKey)]? with
  | some body => rfl
  | none =>
      cases v.loadPage column.file entry with
      | error e => rfl
      | ok body =>
          by_cases hcapacity : v.capacity = 0
          · simp only [if_pos hcapacity]
          · simp only [if_neg hcapacity]

-- The induction is on the pages that are left.
theorem ColumnReader.nextFrom_disk (column : OpenColumn) (layout : PageLayout)
    (pages : List (Nat × PageEntry)) (records : List (List Triple)) (v : Volume) :
    (nextFrom v column layout pages records).1.disk = v.disk := by
  induction pages generalizing v records with
  | nil => cases records <;> rfl
  | cons page pages ih =>
      rcases page with ⟨number, entry⟩
      cases records with
      | cons record rest => rfl
      | nil =>
          have hpage := v.page_disk column number entry
          rw [nextFrom]
          rcases hread : v.page column number entry with ⟨v₁, result⟩
          rw [hread] at hpage
          cases result with
          | error e => exact hpage
          | ok body =>
              cases hdecode : Page.decode layout body with
              | error e =>
                  simp only [hdecode]
                  exact hpage
              | ok records =>
                  simp only [hdecode]
                  exact (ih records v₁).trans hpage

theorem ColumnReader.next_disk (r : ColumnReader) (v : Volume) : (r.next v).1.disk = v.disk :=
  nextFrom_disk ..

namespace Cursor

-- The induction is on the chunks that are left.
theorem nextChunk_disk (column : Nat) (layout : PageLayout) (chunks : List DiskChunk)
    (v : Volume) : (nextChunk v column layout chunks).1.disk = v.disk := by
  induction chunks generalizing v with
  | nil => rfl
  | cons chunk chunks ih =>
      rw [nextChunk]
      cases v.openColumn chunk column with
      | error e => rfl
      | ok opened =>
          cases opened with
          | none =>
              cases chunk.info.recordCount with
              | zero => exact ih v
              | succ remaining => rfl
          | some c =>
              have hnext := (ColumnReader.ofColumn c layout).next_disk v
              simp only
              rcases hread : (ColumnReader.ofColumn c layout).next v with ⟨v₁, result, reader⟩
              rw [hread] at hnext
              cases result with
              | error e => exact hnext
              | ok found =>
                  cases found with
                  | none => exact (ih v₁).trans hnext
                  | some record => exact hnext

theorem next_disk (c : Cursor) (v : Volume) : (c.next v).1.disk = v.disk := by
  have hchunk := nextChunk_disk c.column c.layout c.chunks
  rw [next]
  cases c.state with
  | idle => exact hchunk v
  | missing remaining =>
      cases remaining with
      | zero => exact hchunk v
      | succ remaining => rfl
  | reading reader =>
      have hnext := reader.next_disk v
      simp only
      rcases hread : reader.next v with ⟨v₁, result, reader'⟩
      rw [hread] at hnext
      cases result with
      | error e => exact hnext
      | ok found =>
          cases found with
          | none => exact (hchunk v₁).trans hnext
          | some record => exact hnext

end Cursor

namespace RecordReader

theorem stepCursors_disk (cursors : List Cursor) (v : Volume) :
    (stepCursors v cursors).1.disk = v.disk := by
  induction cursors generalizing v with
  | nil => rfl
  | cons cursor rest ih =>
      have hfirst := cursor.next_disk v
      rw [stepCursors]
      rcases hnext : cursor.next v with ⟨v₁, result, cursor'⟩
      rw [hnext] at hfirst
      cases result with
      | error e => exact hfirst
      | ok triples =>
          have hrest := (ih v₁).trans hfirst
          simp only
          rcases hstep : stepCursors v₁ rest with ⟨v₂, others, rest'⟩
          rw [hstep] at hrest
          cases others <;> exact hrest

theorem next_disk (r : RecordReader) (v : Volume) : (r.next v).1.disk = v.disk := by
  rw [next]
  by_cases hend : r.total ≤ r.emitted
  · rw [if_pos hend]
  · rw [if_neg hend]
    have hstep := stepCursors_disk r.cursors v
    rcases hcursors : stepCursors v r.cursors with ⟨v₁, result, cursors⟩
    rw [hcursors] at hstep
    cases result with
    | error e => exact hstep
    | ok documents =>
        simp only
        split
        · exact hstep
        · exact hstep

-- The induction is on how many records are read.
theorem take_disk (n : Nat) (r : RecordReader) (v : Volume) : (take n r v).1.disk = v.disk := by
  induction n generalizing r v with
  | zero => rfl
  | succ n ih =>
      have hfirst := r.next_disk v
      rw [take]
      rcases hnext : r.next v with ⟨v₁, result, r'⟩
      rw [hnext] at hfirst
      cases result with
      | error e => exact hfirst
      | ok found =>
          cases found with
          | none => exact hfirst
          | some record =>
              have hrest := (ih r' v₁).trans hfirst
              simp only
              rcases htake : take n r' v₁ with ⟨v₂, others⟩
              rw [htake] at hrest
              cases others <;> exact hrest

theorem all_disk (r : RecordReader) (v : Volume) : (r.all v).1.disk = v.disk :=
  take_disk ..

end RecordReader

/-- Whether the records of a table can be read or not, only pages are kept afterwards. -/
theorem Store.records_eq (s : Store) (database table : String) (paths : List String) :
    ∃ v : Volume, v.disk = s.disk ∧ (s.records database table paths).1 = s.setVolume v := by
  rw [records]
  cases s.reader database table paths with
  | error e => exact ⟨s.volume, rfl, rfl⟩
  | ok r => exact ⟨(r.all s.volume).1, r.all_disk s.volume, rfl⟩

end NestedColumns
