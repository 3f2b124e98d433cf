import NestedColumns.Value

/-!
# Triples

An entry of a column. Besides the value it holds two levels that place it in
its document. The repetition level is the number of the array that the entry
starts a new element of, counted from the document inwards; zero starts a new
document. The definition level is how many of the steps to the column exist, so
that a missing value still says how far its surroundings go.

## Main definitions

* `Triple`: A value or its absence, with its levels.
* `Triple.WithinLevels`: The levels are those of a column, and a value is there
  exactly when all steps are.
-/

namespace NestedColumns

/-- An entry of a column. -/
structure Triple where
  value : Option DataValue
  /-- The array that a new element starts in; zero for a new document. -/
  rep : Nat
  /-- How many steps to the column exist. -/
  level : Nat
  deriving DecidableEq, Repr, Inhabited

namespace Triple

/-- An entry without value. -/
def absent (rep level : Nat) : Triple := ⟨none, rep, level⟩

/-- How much room an entry takes in memory, roughly. -/
def estimatedSize (t : Triple) : Nat :=
  2 + match t.value with
    | none => 0
    | some v => 1 + v.estimatedSize

/-- The levels stay below those of a column, and a value is there exactly when
    all steps are. -/
def WithinLevels (maxRep maxDef : Nat) (t : Triple) : Prop :=
  t.rep ≤ maxRep ∧ t.level ≤ maxDef ∧ (t.value.isSome ↔ t.level = maxDef)

end Triple

end NestedColumns
