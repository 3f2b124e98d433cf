import NestedColumns.Assembly
import NestedColumns.Proofs.Schema.Ways

/-!
# Changing slots

A slot is changed at the end of some steps, and two such changes at the same
place are one. What a change does to a list of slots is told place by place: a
list that is too short is as good as one that is filled up with absent slots.

## Theorems

* `Slot.getD_modifyPlace`: A change of one place, seen from any place.
* `Slot.modifyPlace_modifyPlace`, `Slot.modifyAt_modifyAt`: Two changes in one.
* `Slot.modifyAt_append`: A change at the end of two parts of a way.
* `Assembly.advance_append`: Which positions come after an entry.
-/

namespace NestedColumns

namespace Slot

/-- A change of one place, seen from any place. -/
theorem getD_modifyPlace (f : Slot → Slot) (i : Nat) (slots : List Slot) (j : Nat) :
    (modifyPlace f i slots).getD j .absent =
      if i = j then f (slots.getD i .absent) else slots.getD j .absent := by
  induction i generalizing slots j with
  | zero =>
      cases slots with
      | nil => cases j <;> simp [modifyPlace]
      | cons s rest => cases j <;> simp [modifyPlace]
  | succ i ih =>
      cases slots with
      | nil =>
          cases j with
          | zero => simp [modifyPlace]
          | succ j => simpa [modifyPlace] using ih [] j
      | cons s rest =>
          cases j with
          | zero => simp [modifyPlace]
          | succ j => simpa [modifyPlace] using ih rest j

/-- Two changes of one place are one. -/
theorem modifyPlace_modifyPlace (f g : Slot → Slot) (i : Nat) (slots : List Slot) :
    modifyPlace g i (modifyPlace f i slots) = modifyPlace (g ∘ f) i slots := by
  induction i generalizing slots with
  | zero => cases slots <;> rfl
  | succ i ih => cases slots <;> simp only [modifyPlace, ih]

/-- Two changes at the end of the same steps are one. -/
theorem modifyAt_modifyAt (f g : Slot → Slot) (steps : List Step) (positions : List Nat)
    (slot : Slot) :
    modifyAt g steps positions (modifyAt f steps positions slot) =
      modifyAt (g ∘ f) steps positions slot := by
  induction steps generalizing positions slot with
  | nil => rfl
  | cons step steps ih =>
      cases step with
      | member index =>
          have hcomp : modifyAt g steps positions ∘ modifyAt f steps positions =
              modifyAt (g ∘ f) steps positions := funext fun s => ih positions s
          simp only [modifyAt, members, modifyPlace_modifyPlace, hcomp]
      | element =>
          have hcomp : modifyAt g steps positions.tail ∘ modifyAt f steps positions.tail =
              modifyAt (g ∘ f) steps positions.tail := funext fun s => ih positions.tail s
          simp only [modifyAt, elements, modifyPlace_modifyPlace, hcomp]

/-- A change at the end of two parts of a way is one of what the first leads to. -/
theorem modifyAt_append (f : Slot → Slot) (a b : List Step) (p q : List Nat)
    (h : p.length = Step.elements a) (slot : Slot) :
    modifyAt f (a ++ b) (p ++ q) slot = modifyAt (modifyAt f b q) a p slot := by
  induction a generalizing p slot with
  | nil =>
      have hp : p = [] := List.length_eq_zero_iff.mp h
      rw [hp]
      rfl
  | cons step a ih =>
      cases step with
      | member index =>
          rw [Step.elements_member] at h
          have hcomp : modifyAt f (a ++ b) (p ++ q) = modifyAt (modifyAt f b q) a p :=
            funext fun s => ih p h s
          simp only [List.cons_append, modifyAt, hcomp]
      | element =>
          rw [Step.elements_element] at h
          cases p with
          | nil => exact absurd h.symm (Nat.succ_ne_zero _)
          | cons position p =>
              have hcomp : modifyAt f (a ++ b) (p ++ q) = modifyAt (modifyAt f b q) a p :=
                funext fun s => ih p (Nat.succ.inj h) s
              simp only [List.cons_append, modifyAt, List.tail_cons, List.headD_cons, hcomp]

/-- Positions beyond the arrays on the way do not matter. -/
theorem modifyAt_positions (f : Slot → Slot) (steps : List Step) (p q : List Nat)
    (h : p.length = Step.elements steps) (slot : Slot) :
    modifyAt f steps (p ++ q) slot = modifyAt f steps p slot := by
  have happ := modifyAt_append f steps [] p q h slot
  rw [List.append_nil] at happ
  exact happ

end Slot

namespace Assembly

/-- The array after the known positions goes on, and those inside it start again. -/
theorem advance_append (place inner : List Nat) (position : Nat) :
    advance (place.length + 1) (place ++ position :: inner) =
      place ++ (position + 1) :: List.replicate inner.length 0 := by
  induction place with
  | nil => simp only [List.length_nil, List.nil_append, advance, List.map_const']
  | cons first place ih =>
      rw [List.length_cons, List.cons_append, advance, ih, List.cons_append]

end Assembly

end NestedColumns
