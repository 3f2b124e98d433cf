import NestedColumns.Cursor
import NestedColumns.Proofs.Page.Bounded

/-!
# Readers within bounds

What is left of a column file, kept as numbers: the next page in the index, the next document in the
page, and where its entries start among those of the page. A step looks the document up by these
numbers, and goes on to the next page as long as there is one. Every access is checked, so that a
step that goes out of bounds has no result.

Whatever the pages hold, and however often a reader is asked, with whatever there is on the disk by
then, its steps have results, and they are those of `ColumnReader.next`.

## Main definitions

* `FlatReader`, `FlatReader.next`: A column file read by numbers.
* `FlatReader.answers`, `ColumnReader.answers`: What a reader answers, call by call.
* `FlatReader.Stands`: The numbers stand for the documents that are left.

## Theorems

* `FlatReader.next_eq`: A step stays within bounds.
* `FlatReader.answers_eq`: So do all steps.
-/

namespace NestedColumns

/-- What is left of one column file, by numbers. -/
structure FlatReader where
  column : OpenColumn
  layout : PageLayout
  /-- The next page in the index. -/
  nextPage : Nat
  /-- The page that was read last. -/
  page : Flat
  /-- The next document of the page. -/
  record : Nat
  /-- Where its entries start. -/
  start : Nat

namespace FlatReader

/-- A column file of which nothing was read. -/
def ofColumn (column : OpenColumn) (layout : PageLayout) : FlatReader :=
  ⟨column, layout, 0, ⟨[], []⟩, 0, 0⟩

/-- The next document; `none` in place of an answer if an access goes out of bounds. A page that
    cannot be read leaves the reader as it is. -/
def next (r : FlatReader) (v : Volume) :
    Option (Volume × Except StoreError (Option (List Triple)) × FlatReader) :=
  if r.record < r.page.counts.length then do
    let count ← r.page.counts[r.record]?
    let triples ← Checked.slice? r.page.triples r.start (r.start + count)
    return (v, .ok (some triples),
      ⟨r.column, r.layout, r.nextPage, r.page, r.record + 1, r.start + count⟩)
  else if r.nextPage < r.column.index.length then do
    let entry ← r.column.index[r.nextPage]?
    match v.page r.column r.nextPage entry with
    | (v, .error e) => return (v, .error e, r)
    | (v, .ok body) =>
      match ← (Flat.read r.layout body).run with
      | .error e => return (v, .error (.page e), r)
      | .ok page => next ⟨r.column, r.layout, r.nextPage + 1, page, 0, 0⟩ v
  else return (v, .ok none, r)
termination_by r.column.index.length - r.nextPage

/-- What a reader answers to one call after another, each with a volume as it is by then. -/
def answers (r : FlatReader) :
    List Volume → Option (List (Except StoreError (Option (List Triple))))
  | [] => some []
  | v :: volumes => do
    let (_, answer, r) ← r.next v
    return answer :: (← answers r volumes)

end FlatReader

/-- What a reader answers to one call after another, each with a volume as it is by then. -/
def ColumnReader.answers (r : ColumnReader) :
    List Volume → List (Except StoreError (Option (List Triple)))
  | [] => []
  | v :: volumes => (r.next v).2.1 :: answers (r.next v).2.2 volumes

/-! ### Documents by their numbers -/

namespace Page

variable {α : Type}

theorem getElem?_cut {counts : List Nat} (xs : List α) {k n : Nat} (h : counts[k]? = some n) :
    (cut counts xs)[k]? = some ((xs.drop (counts.take k).sum).take n) := by
  induction counts generalizing xs k with
  | nil => cases h
  | cons count counts ih =>
      cases k with
      | zero =>
          cases h
          rfl
      | succ k =>
          rw [cut, List.getElem?_cons_succ, ih (xs.drop count) h, List.drop_drop,
            List.take_succ_cons, List.sum_cons]

-- The entries of a document lie within those of its page.
theorem sum_take_add_le {counts : List Nat} {k n : Nat} (h : counts[k]? = some n) :
    (counts.take k).sum + n ≤ counts.sum := by
  have hsplit : (counts.take (k + 1)).sum + (counts.drop (k + 1)).sum = counts.sum := by
    rw [← List.sum_append, List.take_append_drop]
  rw [List.take_add_one, h, Option.toList_some, List.sum_append, List.sum_singleton] at hsplit
  omega

end Page

namespace FlatReader

/-- The numbers of a reader stand for the pages and documents that are left. -/
structure Stands (r : FlatReader) (c : ColumnReader) : Prop where
  column : c.column = r.column
  layout : c.layout = r.layout
  pages : c.pages = (r.column.index.zipIdx.map fun (entry, i) => (i, entry)).drop r.nextPage
  counts : r.page.counts.sum = r.page.triples.length
  start : r.start = (r.page.counts.take r.record).sum
  records : c.records = (Page.cut r.page.counts r.page.triples).drop r.record

theorem stands_ofColumn (column : OpenColumn) (layout : PageLayout) :
    (ofColumn column layout).Stands (.ofColumn column layout) :=
  ⟨rfl, rfl, rfl, rfl, rfl, rfl⟩

theorem getElem?_numbered (index : PageIndex) (k : Nat) :
    (index.zipIdx.map fun (entry, i) => (i, entry))[k]? = index[k]?.map fun entry => (k, entry) := by
  rw [List.getElem?_map, List.getElem?_zipIdx, Option.map_map, Nat.zero_add]
  rfl

-- A document that is left is the one with the next number, and its entries are in the page.
theorem Stands.document {r : FlatReader} {column : OpenColumn} {layout : PageLayout}
    {pages : List (Nat × PageEntry)} {record : List Triple} {rest : List (List Triple)}
    (h : r.Stands ⟨column, layout, pages, record :: rest⟩) (v : Volume) :
    ∃ r', r.next v = some (v, .ok (some record), r') ∧
      r'.Stands ⟨column, layout, pages, rest⟩ := by
  have hrecord : (Page.cut r.page.counts r.page.triples)[r.record]? = some record := by
    rw [← List.head?_drop, ← h.records, List.head?_cons]
  have hrest : rest = (Page.cut r.page.counts r.page.triples).drop (r.record + 1) := by
    rw [← List.tail_drop, ← h.records, List.tail_cons]
  have hlt : r.record < r.page.counts.length := by
    have hsome := (List.getElem?_eq_some_iff.mp hrecord).1
    rwa [Page.length_cut] at hsome
  have hcount := List.getElem?_eq_getElem hlt
  generalize r.page.counts[r.record] = count at hcount
  have hinside := Page.sum_take_add_le hcount
  rw [← h.start, h.counts] at hinside
  have hslice : Checked.slice? r.page.triples r.start (r.start + count) = some record := by
    rw [Page.getElem?_cut _ hcount, ← h.start] at hrecord
    rw [Checked.slice?, if_pos ⟨Nat.le_add_right .., hinside⟩, Nat.add_sub_cancel_left, hrecord]
  refine ⟨⟨r.column, r.layout, r.nextPage, r.page, r.record + 1, r.start + count⟩, ?_,
    ⟨h.column, h.layout, h.pages, h.counts, ?_, hrest⟩⟩
  · rw [next, if_pos hlt, hcount]
    simp only [Option.bind_eq_bind, Option.bind_some, hslice]
    rfl
  · rw [List.take_add_one, hcount, Option.toList_some, List.sum_append, List.sum_singleton, h.start]

-- The induction is on the pages that are left. A page that is read has its documents left, which
-- may be none.
theorem next_eq {r : FlatReader} {column : OpenColumn} {layout : PageLayout}
    {pages : List (Nat × PageEntry)} {records : List (List Triple)}
    (h : r.Stands ⟨column, layout, pages, records⟩) (v : Volume) :
    let step := ColumnReader.nextFrom v column layout pages records
    ∃ r', r.next v = some (step.1, step.2.1, r') ∧ r'.Stands step.2.2 := by
  induction pages generalizing r v records with
  | nil =>
      rcases records with _ | ⟨record, rest⟩
      swap
      · exact h.document v
      have hrecord : ¬ r.record < r.page.counts.length := by
        have hnone := List.drop_eq_nil_iff.mp h.records.symm
        rw [Page.length_cut] at hnone
        omega
      have hpage : ¬ r.nextPage < r.column.index.length := by
        have hnone := List.drop_eq_nil_iff.mp h.pages.symm
        rw [List.length_map, List.length_zipIdx] at hnone
        omega
      refine ⟨r, ?_, h⟩
      rw [next, if_neg hrecord, if_neg hpage]
      rfl
  | cons page pages ih =>
      rcases records with _ | ⟨record, rest⟩
      swap
      · exact h.document v
      have hrecord : ¬ r.record < r.page.counts.length := by
        have hnone := List.drop_eq_nil_iff.mp h.records.symm
        rw [Page.length_cut] at hnone
        omega
      have hnumbered : (r.column.index.zipIdx.map fun (entry, i) => (i, entry))[r.nextPage]? =
          some page := by
        rw [← List.head?_drop, ← h.pages, List.head?_cons]
      have hpages : pages =
          (r.column.index.zipIdx.map fun (entry, i) => (i, entry)).drop (r.nextPage + 1) := by
        rw [← List.tail_drop, ← h.pages, List.tail_cons]
      rw [getElem?_numbered, Option.map_eq_some_iff] at hnumbered
      rcases hnumbered with ⟨entry, hentry, rfl⟩
      have hlt : r.nextPage < r.column.index.length := (List.getElem?_eq_some_iff.mp hentry).1
      rw [next, if_neg hrecord, if_pos hlt, hentry, ColumnReader.nextFrom]
      have hcolumn : column = r.column := h.column
      have hlayout : layout = r.layout := h.layout
      subst hcolumn hlayout
      simp only [Option.bind_eq_bind, Option.bind_some]
      rcases v.page r.column r.nextPage entry with ⟨v₁, e | body⟩
      · exact ⟨r, rfl, h⟩
      · simp only [Flat.read_eq]
        cases hdecode : Page.decode r.layout body with
        | error e => exact ⟨r, rfl, h⟩
        | ok found =>
            have hstands : Stands ⟨r.column, r.layout, r.nextPage + 1, .ofPage found, 0, 0⟩
                ⟨r.column, r.layout, pages, found⟩ := by
              refine ⟨rfl, rfl, hpages, List.length_flatten.symm, rfl, ?_⟩
              exact (Page.cut_flatten found).symm
            exact ih hstands v₁

theorem answers_eq {r : FlatReader} {c : ColumnReader} (h : r.Stands c) (volumes : List Volume) :
    r.answers volumes = some (c.answers volumes) := by
  induction volumes generalizing r c with
  | nil => rfl
  | cons v volumes ih =>
      rcases c with ⟨column, layout, pages, records⟩
      rcases next_eq h v with ⟨r', hnext, hstands⟩
      rw [answers, hnext]
      simp only [Option.bind_eq_bind, Option.bind_some, ih hstands]
      rfl

end FlatReader

end NestedColumns
