import Mathlib.Data.List.Basic

/-!
# Cuts

What an interrupted write leaves of a sequence is its start, without its end. A start of
two sequences one behind the other ends in the first of them, or is all of the first and a
start of the second; so what is left of a text is found by going along its parts.

## Main definitions

* `Cut`: A start of a sequence that is not all of it.

## Theorems

* `cut_cons`, `cut_append`: Where a sequence is cut.
-/

namespace NestedColumns

/-- A start of a sequence that is not all of it. -/
def Cut {α : Type} (part whole : List α) : Prop :=
  part <+: whole ∧ part ≠ whole

variable {α β : Type} {part a b : List α} {x : α}

theorem not_cut_nil : ¬ Cut part [] :=
  fun h => h.2 (List.prefix_nil.mp h.1)

theorem cut_cons (h : Cut part (x :: a)) : part = [] ∨ ∃ more, part = x :: more ∧ Cut more a := by
  rcases List.prefix_cons_iff.mp h.1 with hnil | ⟨more, rfl, hmore⟩
  · exact Or.inl hnil
  · exact Or.inr ⟨more, rfl, hmore, fun heq => h.2 (by rw [heq])⟩

theorem cut_append (h : Cut part (a ++ b)) : Cut part a ∨ ∃ more, part = a ++ more ∧ Cut more b := by
  induction a generalizing part with
  | nil => exact Or.inr ⟨part, rfl, h⟩
  | cons x a ih =>
      rcases cut_cons h with rfl | ⟨more, rfl, hmore⟩
      · exact Or.inl ⟨List.nil_prefix, (List.cons_ne_nil _ _).symm⟩
      · rcases ih hmore with hcut | ⟨rest, rfl, hrest⟩
        · exact Or.inl ⟨List.cons_prefix_cons.mpr ⟨rfl, hcut.1⟩, fun heq =>
            hcut.2 (List.cons.inj heq).2⟩
        · exact Or.inr ⟨rest, rfl, hrest⟩

theorem cut_singleton (h : Cut part [x]) : part = [] := by
  rcases cut_cons h with hnil | ⟨more, -, hmore⟩
  · exact hnil
  · exact absurd hmore not_cut_nil

theorem Cut.length_lt (h : Cut part a) : part.length < a.length :=
  Nat.lt_of_le_of_ne h.1.length_le fun heq => h.2 (h.1.eq_of_length heq)

theorem cut_take {whole : List α} {n : Nat} (h : n < whole.length) :
    Cut (whole.take n) whole := by
  refine ⟨List.take_prefix n whole, fun heq => ?_⟩
  have hlength := congrArg List.length heq
  rw [List.length_take] at hlength
  omega

end NestedColumns
