import NestedColumns.Proofs.Documents.Contents
import NestedColumns.Shredding

/-!
# The stream of a column

Which entries a document has in the column at the end of a way follows from the
document alone: wherever the way goes on in it the entry goes on too, and an
entry without value marks each place where it does not.

The entries of a longer way tell those of a shorter one: without the repetitions
that come after the shorter way, and with levels no higher than its length, they
are what a column at its end would have without values. This is how a column can
lend another the shape of a document.

## Main definitions

* `Json.stream`: The entries at the end of a way, whose values are taken by a
  function.
* `Json.outline`: The entries without values.
* `Json.cut`: Entries cut to the arrays and the length of a shorter way.
* `Json.Conforms`: Wherever the way goes on in a document, it does so in a value
  of the right kind.

## Theorems

* `Json.stream_eq_cons`: The first entry goes on with the repetition level, and
  all others repeat something inside.
* `Json.cut_stream`: A longer way tells the outline of a shorter one.
* `Json.stream_kept`: What is kept has the entries of the document.
* `Json.stream_kept_of_missing`: Below a field that was not kept there is the
  outline of its object.
-/

namespace NestedColumns

namespace Json

open Schema (Node field?)

/-- The entries at the end of a way for a value that is present at level `level`,
    inside `arrays` arrays, and is reached with repetition level `rep`. -/
def stream (value : Json → Option DataValue) :
    Way → Json → (rep level arrays : Nat) → List Triple
  | [], v, rep, level, _ => [⟨value v, rep, level⟩]
  | .member name :: way, .object members, rep, level, arrays =>
    match present? members name with
    | some v => stream value way v rep (level + 1) arrays
    | none => [.absent rep level]
  | .element :: way, .array items, rep, level, arrays =>
    match presentItems items with
    | [] => [.absent rep level]
    | first :: others =>
      stream value way first rep (level + 1) (arrays + 1) ++
        others.flatMap fun v => stream value way v (arrays + 1) (level + 1) (arrays + 1)
  | _ :: _, _, rep, level, _ => [.absent rep level]

/-- The entries without values: how far a document goes along a way. -/
def outline : Way → Json → (rep level arrays : Nat) → List Triple :=
  stream fun _ => none

/-- Wherever the way goes on in a value, it does so in one of the right kind, and
    at its end there are scalars. -/
def Conforms : Way → Json → Prop
  | [], v => (DataValue.ofJson? v).isSome
  | .member name :: way, .object members => ∀ v, present? members name = some v → Conforms way v
  | .element :: way, .array items => ∀ v ∈ presentItems items, Conforms way v
  | _ :: _, _ => False

variable {value : Json → Option DataValue} {way : Way} {v : Json} {rep level arrays : Nat}

/-- What the first step of a way does with a value: it stops there, goes on in a
    member, or goes on in the items of an array. -/
theorem stream_cons_cases (hop : Hop) (v : Json) :
    (∀ value way rep level arrays,
      stream value (hop :: way) v rep level arrays = [.absent rep level]) ∨
    (∃ name members w, hop = .member name ∧ v = .object members ∧
      present? members name = some w ∧ ∀ value way rep level arrays,
      stream value (hop :: way) v rep level arrays = stream value way w rep (level + 1) arrays) ∨
    (∃ items first others, hop = .element ∧ v = .array items ∧
      presentItems items = first :: others ∧ ∀ value way rep level arrays,
      stream value (hop :: way) v rep level arrays =
        stream value way first rep (level + 1) (arrays + 1) ++
          others.flatMap fun w => stream value way w (arrays + 1) (level + 1) (arrays + 1)) := by
  cases hop with
  | member name =>
      cases v with
      | object members =>
          cases h : present? members name with
          | none => exact Or.inl fun _ _ _ _ _ => by rw [stream, h]
          | some w =>
              exact Or.inr (Or.inl ⟨name, members, w, rfl, rfl, h, fun _ _ _ _ _ => by
                rw [stream, h]⟩)
      | null | bool | number | string | array => exact Or.inl fun _ _ _ _ _ => rfl
  | element =>
      cases v with
      | array items =>
          cases h : presentItems items with
          | nil => exact Or.inl fun _ _ _ _ _ => by rw [stream, h]
          | cons first others =>
              exact Or.inr (Or.inr ⟨items, first, others, rfl, rfl, h, fun _ _ _ _ _ => by
                rw [stream, h]⟩)
      | null | bool | number | string | object => exact Or.inl fun _ _ _ _ _ => rfl

/-- The first entry goes on with the repetition level it was reached with, and
    all others repeat something inside. None is above the value. -/
theorem stream_eq_cons (value : Json → Option DataValue) (way : Way) (v : Json)
    (rep level arrays : Nat) :
    ∃ t rest, stream value way v rep level arrays = t :: rest ∧ t.rep = rep ∧ level ≤ t.level ∧
      ∀ e ∈ rest, arrays < e.rep ∧ level ≤ e.level := by
  induction way generalizing v rep level arrays with
  | nil => exact ⟨_, [], rfl, rfl, Nat.le_refl _, fun e he => absurd he List.not_mem_nil⟩
  | cons hop way ih =>
      rcases stream_cons_cases hop v with h | ⟨name, members, w, -, -, -, h⟩ |
        ⟨items, first, others, -, -, -, h⟩
      · rw [h]
        exact ⟨_, [], rfl, rfl, Nat.le_refl _, fun e he => absurd he List.not_mem_nil⟩
      · rw [h]
        rcases ih w rep (level + 1) arrays with ⟨t, rest, heq, hrep, hlevel, hrest⟩
        refine ⟨t, rest, heq, hrep, by omega, fun e he => ?_⟩
        have := hrest e he
        omega
      · rw [h]
        rcases ih first rep (level + 1) (arrays + 1) with ⟨t, rest, heq, hrep, hlevel, hrest⟩
        refine ⟨t, _, by rw [heq, List.cons_append], hrep, by omega, fun e he => ?_⟩
        rcases List.mem_append.mp he with he | he
        · have := hrest e he
          omega
        · -- Every other item starts with a repetition of this array.
          rcases List.mem_flatMap.mp he with ⟨w, -, hw⟩
          rcases ih w (arrays + 1) (level + 1) (arrays + 1) with
            ⟨u, rest', heq', hrep', hlevel', hrest'⟩
          rw [heq'] at hw
          rcases List.mem_cons.mp hw with rfl | hw
          · omega
          · have := hrest' e hw
            omega

theorem stream_ne_nil (value : Json → Option DataValue) (way : Way) (v : Json)
    (rep level arrays : Nat) : stream value way v rep level arrays ≠ [] := by
  rcases stream_eq_cons value way v rep level arrays with ⟨t, rest, heq, -⟩
  rw [heq]
  exact List.cons_ne_nil _ _

/-- No entry goes beyond the way. -/
theorem stream_within (hr : rep ≤ arrays) :
    ∀ e ∈ stream value way v rep level arrays,
      e.rep ≤ arrays + way.elements ∧ e.level ≤ level + way.length := by
  induction way generalizing v rep level arrays with
  | nil =>
      intro e he
      rw [stream, List.mem_singleton] at he
      rw [he, Way.elements_nil, List.length_nil]
      exact ⟨hr, Nat.le_refl _⟩
  | cons hop way ih =>
      intro e he
      rw [List.length_cons]
      rcases stream_cons_cases hop v with h | ⟨name, members, w, rfl, -, -, h⟩ |
        ⟨items, first, others, rfl, -, -, h⟩
      · rw [h, List.mem_singleton] at he
        rw [he]
        exact ⟨Nat.le_trans hr (Nat.le_add_right _ _), Nat.le_add_right _ _⟩
      · rw [h] at he
        have := ih hr e he
        rw [Way.elements_member]
        omega
      · rw [h] at he
        rw [Way.elements_element]
        rcases List.mem_append.mp he with he | he
        · have := ih (by omega) e he
          omega
        · rcases List.mem_flatMap.mp he with ⟨w, -, hw⟩
          have := ih (Nat.le_refl _) e hw
          omega

/-- A value is there exactly at the end of the way. -/
theorem stream_presence (hc : Conforms way v) :
    ∀ e ∈ stream DataValue.ofJson? way v rep level arrays,
      (e.value.isSome ↔ e.level = level + way.length) := by
  induction way generalizing v rep level arrays with
  | nil =>
      intro e he
      rw [stream, List.mem_singleton] at he
      rw [he]
      simp only [List.length_nil, Nat.add_zero, iff_true]
      exact hc
  | cons hop way ih =>
      intro e he
      rw [List.length_cons]
      rcases stream_cons_cases hop v with h | ⟨name, members, w, rfl, rfl, hw, h⟩ |
        ⟨items, first, others, rfl, rfl, hitems, h⟩
      · rw [h, List.mem_singleton] at he
        rw [he]
        simp only [Triple.absent, Option.isSome_none, Bool.false_eq_true, false_iff]
        omega
      · rw [h] at he
        rw [ih (hc w hw) e he]
        omega
      · rw [h] at he
        rw [Conforms, hitems] at hc
        rcases List.mem_append.mp he with he | he
        · rw [ih (hc first List.mem_cons_self) e he]
          omega
        · rcases List.mem_flatMap.mp he with ⟨w, hm, hw⟩
          rw [ih (hc w (List.mem_cons_of_mem _ hm)) e hw]
          omega

/-! ### Shorter ways -/

/-- Entries without values, without the repetitions beyond `arrays`, and with no
    level above `level`. -/
def cut (arrays level : Nat) (entries : List Triple) : List Triple :=
  (entries.filter (·.rep ≤ arrays)).map fun t => .absent t.rep (min t.level level)

theorem cut_append (a b : List Triple) (arrays level : Nat) :
    cut arrays level (a ++ b) = cut arrays level a ++ cut arrays level b := by
  rw [cut, List.filter_append, List.map_append, cut, cut]

theorem cut_flatMap {α : Type} (f : α → List Triple) (xs : List α) (arrays level : Nat) :
    cut arrays level (xs.flatMap f) = xs.flatMap fun x => cut arrays level (f x) := by
  induction xs with
  | nil => rfl
  | cons x xs ih => rw [List.flatMap_cons, List.flatMap_cons, cut_append, ih]

theorem cut_absent (hr : rep ≤ arrays) {bound : Nat} (hl : level ≤ bound) :
    cut arrays bound [.absent rep level] = [.absent rep level] := by
  have hkeep : [Triple.absent rep level].filter (·.rep ≤ arrays) = [.absent rep level] := by
    refine List.filter_eq_self.mpr fun t ht => ?_
    rw [List.mem_singleton.mp ht]
    exact decide_eq_true hr
  rw [cut, hkeep]
  simp only [List.map_cons, List.map_nil, Triple.absent, Nat.min_eq_left hl]

/-- A longer way tells the outline of a shorter one. -/
theorem cut_stream (p q : Way) (hr : rep ≤ arrays) :
    cut (arrays + p.elements) (level + p.length) (stream value (p ++ q) v rep level arrays) =
      outline p v rep level arrays := by
  induction p generalizing v rep level arrays with
  | nil =>
      -- All entries but the first repeat something below the value.
      rcases stream_eq_cons value q v rep level arrays with ⟨t, rest, heq, hrep, hlevel, hrest⟩
      have hnone : rest.filter (fun t => decide (t.rep ≤ arrays)) = [] := by
        rw [List.filter_eq_nil_iff]
        intro e he
        have := (hrest e he).1
        simp only [decide_eq_true_eq]
        omega
      rw [List.nil_append, heq, Way.elements_nil, List.length_nil, Nat.add_zero, Nat.add_zero, cut,
        List.filter_cons_of_pos (by simpa only [hrep, decide_eq_true_eq]), hnone, outline, stream]
      simp only [List.map_cons, List.map_nil, hrep, Nat.min_eq_right hlevel, Triple.absent]
  | cons hop p ih =>
      rw [List.cons_append, List.length_cons, outline]
      rcases stream_cons_cases hop v with h | ⟨name, members, w, rfl, -, -, h⟩ |
        ⟨items, first, others, rfl, -, -, h⟩
      · rw [h, h]
        exact cut_absent (Nat.le_trans hr (Nat.le_add_right _ _)) (Nat.le_add_right _ _)
      · have hlevel : level + (p.length + 1) = level + 1 + p.length := by omega
        rw [h, h, Way.elements_member, hlevel]
        exact ih hr
      · have harrays : arrays + (Way.elements p + 1) = arrays + 1 + Way.elements p := by omega
        have hlevel : level + (p.length + 1) = level + 1 + p.length := by omega
        rw [h, h, Way.elements_element, harrays, hlevel, cut_append, cut_flatMap, ih (by omega)]
        simp only [ih (Nat.le_refl (arrays + 1)), outline]

/-! ### What is kept -/

/-- What is kept has the entries of the document, in every column of the shape. -/
theorem stream_kept {node : Node} (hu : node.NamesUnique) {column : Nat} {type : DataType}
    (hw : node.at? way = some (.leaf column type)) :
    stream DataValue.ofJson? way (kept node v) rep level arrays =
      stream DataValue.ofJson? way v rep level arrays := by
  induction way generalizing node v rep level arrays with
  | nil =>
      rw [Node.at?_nil, Option.some.injEq] at hw
      rw [hw]
      rfl
  | cons hop way ih =>
      rcases Node.at?_cons_some hw with ⟨fields, name, next, rfl, rfl, hf, hr⟩ |
        ⟨element, rfl, rfl, hr⟩
      · cases v with
        | object members =>
            have hleaf : next.hasLeaf = true :=
              Node.hasLeaf_iff.mpr ⟨column, Node.mem_columns_of_at? hr⟩
            rw [kept, stream, stream, present?_keptMembers hu.1, hf, Option.bind_some,
              if_pos hleaf]
            cases present? members name with
            | none => rfl
            | some w =>
                exact ih (Node.namesUniqueOf_iff.mp hu.2 _ (Schema.mem_of_field? hf)) hr
        | null | bool | number | string | array => rfl
      · cases v with
        | array items =>
            rw [kept, stream, stream, presentItems_map_kept]
            cases presentItems items with
            | nil => rfl
            | cons first others =>
                have helement : element.NamesUnique := hu
                simp only [List.map_cons, ih helement hr, List.flatMap_map]
        | null | bool | number | string | object => rfl

/-- Below a field that was not kept there is the outline of its object. -/
theorem stream_kept_of_missing {node : Node} (hu : node.NamesUnique) {p : Way} {name : String}
    {fields : List (String × Node)} (hp : node.at? p = some (.object fields))
    (hmissing : ∀ next, field? fields name = some next → next.hasLeaf = false) (q : Way) :
    stream value (p ++ .member name :: q) (kept node v) rep level arrays =
      outline p (kept node v) rep level arrays := by
  induction p generalizing node v rep level arrays with
  | nil =>
      rw [Node.at?_nil, Option.some.injEq] at hp
      subst hp
      cases v with
      | object members =>
          rw [List.nil_append, kept, stream, present?_keptMembers hu.1]
          cases hf : field? fields name with
          | none => rfl
          | some next => simp only [Option.bind_some, hmissing next hf, Bool.false_eq_true, if_false,
              outline, stream, Triple.absent]
      | null | bool | number | string | array => rfl
  | cons hop p ih =>
      rw [List.cons_append, outline]
      rcases Node.at?_cons_some hp with ⟨all, first, next, rfl, rfl, hf, hr⟩ |
        ⟨element, rfl, rfl, hr⟩
      · cases v with
        | object members =>
            rw [kept, stream, stream, present?_keptMembers hu.1, hf, Option.bind_some]
            split
            · next w hw =>
              split at hw
              · rcases Option.map_eq_some_iff.mp hw with ⟨x, -, rfl⟩
                exact ih (Node.namesUniqueOf_iff.mp hu.2 _ (Schema.mem_of_field? hf)) hr
              · cases hw
            · rfl
        | null | bool | number | string | array => rfl
      · cases v with
        | array items =>
            rw [kept, stream, stream, presentItems_map_kept]
            cases presentItems items with
            | nil => rfl
            | cons first others =>
                have helement : element.NamesUnique := hu
                simp only [List.map_cons, ih helement hr, List.flatMap_map, outline]
        | null | bool | number | string | object => rfl

end Json

end NestedColumns
