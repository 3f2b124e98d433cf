import NestedColumns.Proofs.Column.Cursors
import NestedColumns.Proofs.Projection.Links
import NestedColumns.RecordReader

/-!
# Reading all records

A reader gives one record for each document, in order, if each of its cursors has the
entries of all documents ahead and these can be put together document by document.

## Main definitions

* `RecordReader.Ready`: A reader that has the records of some documents left.

## Theorems

* `RecordReader.stepCursors_spec`: The cursors move on by one document together.
* `RecordReader.Ready.next`, `RecordReader.Ready.all`: The record of one document, and of all.
-/

namespace NestedColumns

namespace RecordReader

open Projection (streamsOf)

variable {α : Type} {d : Disk} {bodies : PageKey → Option (List UInt8)} {v : Volume}
  {stored : α → Nat → List Triple}

/-- Each cursor has the entries of some documents in its column ahead. -/
def AllAhead (d : Disk) (bodies : PageKey → Option (List UInt8)) (stored : α → Nat → List Triple)
    (documents : List α) (columns : List ProjectedColumn) (cursors : List Cursor) : Prop :=
  List.Forall₂ (fun column cursor =>
    cursor.Ahead d bodies (documents.map fun x => stored x column.column)) columns cursors

theorem stepCursors_spec {x : α} {rest : List α} {columns : List ProjectedColumn}
    {cursors : List Cursor} (h : AllAhead d bodies stored (x :: rest) columns cursors)
    (hd : v.disk = d) (hr : v.Right bodies) :
    ∃ v' cursors', stepCursors v cursors =
        (v', .ok ((streamsOf (stored x) columns).map some), cursors') ∧
      v'.disk = d ∧ v'.Right bodies ∧ AllAhead d bodies stored rest columns cursors' := by
  induction h generalizing v with
  | nil => exact ⟨v, [], rfl, hd, hr, .nil⟩
  | cons hahead _ ih =>
      rcases Cursor.next_spec hahead hd hr with ⟨v₁, c₁, hnext, hd₁, hr₁, hahead₁⟩
      rcases ih hd₁ hr₁ with ⟨v₂, cursors₂, hrest, hd₂, hr₂, hall⟩
      refine ⟨v₂, c₁ :: cursors₂, ?_, hd₂, hr₂, .cons hahead₁ hall⟩
      rw [stepCursors, hnext]
      simp only [hrest]
      rfl

theorem requireAll_spec (emitted total : Nat) (columns : List ProjectedColumn)
    (f : Nat → List Triple) :
    requireAll emitted total (columns.zip ((streamsOf f columns).map some)) =
      .ok (streamsOf f columns) := by
  induction columns with
  | nil => rfl
  | cons c columns ih =>
      have hcons : streamsOf f (c :: columns) = f c.column :: streamsOf f columns := rfl
      rw [hcons, List.map_cons, List.zip_cons_cons, requireAll, ih]
      rfl

/-- A reader has the records of some documents left: its cursors have their entries ahead, which can
    be put together. -/
structure Ready (d : Disk) (bodies : PageKey → Option (List UInt8)) (stored : α → Nat → List Triple)
    (P : α → Record → Prop) (documents : List α) (r : RecordReader) : Prop where
  cursors : AllAhead d bodies stored documents r.projection.reads r.cursors
  total : r.total = r.emitted + documents.length
  assembled : ∀ x ∈ documents, ∃ record,
    Assembly.assemble r.projection (streamsOf (stored x) r.projection.reads) = .ok record ∧
      P x record

variable {P : α → Record → Prop} {documents : List α} {r : RecordReader}

/-- The next record is that of the first document that is left. -/
theorem Ready.next {x : α} (h : Ready d bodies stored P (x :: documents) r) (hd : v.disk = d)
    (hr : v.Right bodies) : ∃ v' record r', r.next v = (v', .ok (some record), r') ∧ v'.disk = d ∧
      v'.Right bodies ∧ P x record ∧ Ready d bodies stored P documents r' := by
  rcases stepCursors_spec h.cursors hd hr with ⟨v', cursors', hstep, hd', hr', hahead⟩
  rcases h.assembled x List.mem_cons_self with ⟨record, hrecord, hp⟩
  have htotal := h.total
  rw [List.length_cons] at htotal
  have hmore : ¬ r.total ≤ r.emitted := by omega
  refine ⟨v', record, ⟨r.projection, cursors', r.total, r.emitted + 1⟩, ?_, hd', hr', hp, hahead, ?_,
    fun y hy => h.assembled y (List.mem_cons_of_mem _ hy)⟩
  · rw [RecordReader.next, if_neg hmore, hstep]
    simp only [requireAll_spec, bind, Except.bind, hrecord, Except.mapError]
  · have htotal' : r.total = r.emitted + 1 + documents.length := by omega
    exact htotal'

-- The induction is on the documents that are left, which the reader counts.
theorem Ready.take (h : Ready d bodies stored P documents r) (hd : v.disk = d)
    (hr : v.Right bodies) : ∃ v' records, take documents.length r v = (v', .ok records) ∧
      v'.disk = d ∧ v'.Right bodies ∧ List.Forall₂ P documents records := by
  induction documents generalizing r v with
  | nil => exact ⟨v, [], rfl, hd, hr, .nil⟩
  | cons x rest ih =>
      rcases h.next hd hr with ⟨v₁, record, r₁, hnext, hd₁, hr₁, hp, hready⟩
      rcases ih hready hd₁ hr₁ with ⟨v₂, records, hrest, hd₂, hr₂, hall⟩
      refine ⟨v₂, record :: records, ?_, hd₂, hr₂, .cons hp hall⟩
      rw [List.length_cons, RecordReader.take, hnext]
      simp only [hrest]

theorem Ready.all (h : Ready d bodies stored P documents r) (hd : v.disk = d)
    (hr : v.Right bodies) : ∃ v' records, r.all v = (v', .ok records) ∧ v'.disk = d ∧
      v'.Right bodies ∧ List.Forall₂ P documents records := by
  have hleft : r.total - r.emitted = documents.length := by
    have htotal := h.total
    omega
  rw [RecordReader.all, hleft]
  exact h.take hd hr

end RecordReader

end NestedColumns
