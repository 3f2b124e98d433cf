import NestedColumns.Proofs.Assembly.Slots
import NestedColumns.Proofs.Documents.Streams

/-!
# Placing a stream

Putting the stream of a value into a record changes one slot, the one where the
value is: what is on the column's way is filled in there, member by member and
item by item. The levels of the entries say nothing else, and the positions that
are counted along lead each item to its own slot.

## Main definitions

* `Assembly.Matches`: Steps by place and by name that take the same way.
* `Assembly.fill`: A slot with what a value has along a way.
* `Assembly.Places`: What the entries of a value do to a record.

## Theorems

* `Assembly.placeFrom_stream`: The entries of a value, wherever it is in a record.
* `Assembly.place_stream`: The stream of a document.
-/

namespace NestedColumns

namespace Assembly

open Json (present? presentItems stream Conforms)

/-- A step by place and one by name that go the same way. -/
inductive Matches : Step → Hop → Prop where
  | member (index : Nat) (name : String) : Matches (.member index) (.member name)
  | element : Matches .element .element

/-- Slots changed one after another, from some place on, each by its item. -/
def placeItems (f : Json → Slot → Slot) : Nat → List Json → List Slot → List Slot
  | _, [], slots => slots
  | i, v :: rest, slots => placeItems f (i + 1) rest (Slot.modifyPlace (f v) i slots)

/-- A slot with what a value has along a way. -/
def fill : List Step → Way → Json → Slot → Slot
  | .member index :: steps, .member name :: way, .object members, slot =>
    match present? members name with
    | some v => .object (Slot.modifyPlace (fill steps way v) index slot.members)
    | none => slot.asObject
  | .element :: steps, .element :: way, .array items, slot =>
    .array (placeItems (fill steps way) 0 (presentItems items) slot.elements)
  | _, _, v, slot =>
    match DataValue.ofJson? v with
    | some x => .value x
    | none => slot

theorem fill_nil {v : Json} {x : DataValue} (h : DataValue.ofJson? v = some x) :
    fill [] [] v = fun _ => .value x := by
  funext slot
  simp only [fill, h]

theorem fill_member_some {members : List (String × Json)} {name : String} {v : Json}
    (h : present? members name = some v) (index : Nat) (steps : List Step) (way : Way) :
    fill (.member index :: steps) (.member name :: way) (.object members) =
      fun slot => .object (Slot.modifyPlace (fill steps way v) index slot.members) := by
  funext slot
  rw [fill, h]

theorem fill_member_none {members : List (String × Json)} {name : String}
    (h : present? members name = none) (index : Nat) (steps : List Step) (way : Way) :
    fill (.member index :: steps) (.member name :: way) (.object members) = Slot.asObject := by
  funext slot
  rw [fill, h]

theorem fill_element (items : List Json) (steps : List Step) (way : Way) :
    fill (.element :: steps) (.element :: way) (.array items) =
      fun slot => .array (placeItems (fill steps way) 0 (presentItems items) slot.elements) := rfl

theorem matches_of_along? {node last : Schema.Node} {steps : List Step} {way : Way}
    (h : node.along? steps = some (way, last)) : List.Forall₂ Matches steps way := by
  induction steps generalizing node way with
  | nil =>
      rcases Schema.Node.along?_nil_some h with ⟨rfl, -⟩
      exact .nil
  | cons step steps ih =>
      rcases Schema.Node.along?_cons_some h with
        ⟨fields, index, name, next, rest, rfl, rfl, hf, hr, rfl⟩ | ⟨element, rest, rfl, rfl, hr, rfl⟩
      · exact .cons (.member index name) (ih hr)
      · exact .cons .element (ih hr)

variable {column : ProjectedColumn} {steps before : List Step} {positions place : List Nat}
  {first : Bool} {rep : Nat}

/-- One entry at the end of known steps. -/
theorem placeFrom_cons {t : Triple} {f : Slot → Slot} (hs : column.steps = before ++ steps)
    (hf : filling column t = .ok f) (hfirst : first = decide (t.rep = 0))
    (hrep : t.rep ≤ Step.elements before) (hlevel : t.level = before.length)
    (hplace : place.length = Step.elements before)
    (hadvance : advance t.rep positions = place ++ List.replicate (Step.elements steps) 0)
    (rest : List Triple) (root : Slot) :
    placeFrom column first positions (t :: rest) root =
      placeFrom column false (place ++ List.replicate (Step.elements steps) 0) rest
        (root.modifyAt f before place) := by
  have htake : column.steps.take t.level = before := by rw [hs, hlevel, List.take_left]
  have hmaxRep : ¬column.maxRep < t.rep := by
    rw [ProjectedColumn.maxRep, hs, Step.elements_append]
    omega
  have hmaxDef : ¬column.maxDef < t.level := by
    rw [ProjectedColumn.maxDef, hs, List.length_append, hlevel]
    omega
  have hchecks : ¬(first ≠ decide (t.rep = 0) ∨ column.maxRep < t.rep ∨
      column.maxDef < t.level) := by
    rw [hfirst]
    simp only [ne_eq, not_true_eq_false, hmaxRep, hmaxDef, or_self, not_false_eq_true]
  rw [placeFrom, if_neg hchecks, hf]
  simp only
  rw [hadvance, htake, Slot.modifyAt_positions f before place _ hplace]

theorem getElem?_of_steps {step : Step} {more : List Step}
    (hs : column.steps = before ++ step :: more) :
    column.steps[before.length]? = some step := by
  rw [hs, List.getElem?_append_right (Nat.le_refl _), Nat.sub_self]
  rfl

/-- The items of an array after the first, each in the place after that of the one
    before. `g` is what the items before have made of the slot of the array. -/
theorem placeFrom_items {n : Nat} {f : Json → Slot → Slot} {entries : Json → List Triple}
    {items : List Json}
    (h : ∀ w ∈ items, ∀ j inner rest root, inner.length = n → ∃ inner', inner'.length = n ∧
      placeFrom column false (place ++ j :: inner) (entries w ++ rest) root =
        placeFrom column false (place ++ (j + 1) :: inner') rest
          (root.modifyAt (fun s => .array (Slot.modifyPlace (f w) (j + 1) s.elements)) before place))
    (j : Nat) (inner : List Nat) (hinner : inner.length = n) (g : Slot → Slot)
    (hg : ∀ s, g s = .array (g s).elements) (rest : List Triple) (root : Slot) :
    ∃ last, last.length = n + 1 ∧
      placeFrom column false (place ++ j :: inner) (items.flatMap entries ++ rest)
          (root.modifyAt g before place) =
        placeFrom column false (place ++ last) rest
          (root.modifyAt (fun s => .array (placeItems f (j + 1) items (g s).elements)) before
            place) := by
  induction items generalizing j inner g with
  | nil =>
      refine ⟨j :: inner, by rw [List.length_cons, hinner], ?_⟩
      have hsame : (fun s => Slot.array (placeItems f (j + 1) [] (g s).elements)) = g :=
        funext fun s => (hg s).symm
      rw [hsame]
      rfl
  | cons w items ih =>
      rcases h w List.mem_cons_self j inner (items.flatMap entries ++ rest)
        (root.modifyAt g before place) hinner with ⟨inner', hinner', hstep⟩
      have hnext := ih (fun x hx => h x (List.mem_cons_of_mem _ hx)) (j + 1) inner' hinner'
        ((fun s => .array (Slot.modifyPlace (f w) (j + 1) s.elements)) ∘ g) (fun s => rfl)
      rw [List.flatMap_cons, List.append_assoc, hstep, Slot.modifyAt_modifyAt]
      exact hnext

/-- The entries of a value change the slot at the end of the steps before, and leave the
    positions of those steps as they are. -/
def Places (column : ProjectedColumn) (before steps : List Step) (way : Way) (v : Json) : Prop :=
  ∀ (first : Bool) (positions place : List Nat) (rep : Nat) (rest : List Triple) (root : Slot),
    first = decide (rep = 0) → rep ≤ Step.elements before →
    place.length = Step.elements before →
    advance rep positions = place ++ List.replicate (Step.elements steps) 0 →
    (before = [] → root.asObject = root) →
    ∃ inner, inner.length = Step.elements steps ∧
      placeFrom column first positions
          (stream DataValue.ofJson? way v rep before.length (Step.elements before) ++ rest) root =
        placeFrom column false (place ++ inner) rest
          (root.modifyAt (fill steps way v) before place)

variable {way : Way} {index : Nat} {name : String}

theorem places_leaf {v : Json} (hc : Conforms [] v) (hs : column.steps = before ++ []) :
    Places column before [] [] v := by
  intro first positions place rep rest root hfirst hrep hplace hadvance _
  rcases Option.isSome_iff_exists.mp hc with ⟨x, hx⟩
  refine ⟨List.replicate (Step.elements []) 0, List.length_replicate, ?_⟩
  rw [stream, List.singleton_append]
  refine placeFrom_cons hs ?_ hfirst hrep rfl hplace hadvance rest root
  rw [fill_nil hx, filling, hs, List.append_nil, List.getElem?_eq_none (Nat.le_refl _), hx]

-- The record itself is not filled in where a member of it is absent: it is there already.
theorem places_absent {members : List (String × Json)}
    (hs : column.steps = before ++ .member index :: steps) (hv : present? members name = none) :
    Places column before (.member index :: steps) (.member name :: way) (.object members) := by
  intro first positions place rep rest root hfirst hrep hplace hadvance hroot
  refine ⟨List.replicate _ 0, List.length_replicate, ?_⟩
  have hfilling : filling column (.absent rep before.length) =
      .ok (if 0 < before.length then Slot.asObject else id) := by
    rw [filling, Triple.absent, getElem?_of_steps hs]
  rw [stream, hv]
  simp only [List.singleton_append]
  rw [placeFrom_cons hs hfilling hfirst hrep rfl hplace hadvance, fill_member_none hv]
  cases before with
  | nil =>
      simp only [List.length_nil, Nat.lt_irrefl, if_false]
      exact congrArg (placeFrom column false _ rest) (hroot rfl).symm
  | cons step before => simp only [List.length_cons, Nat.succ_pos, if_true]

theorem places_member {members : List (String × Json)} {w : Json}
    (hv : present? members name = some w)
    (h : Places column (before ++ [.member index]) steps way w) :
    Places column before (.member index :: steps) (.member name :: way) (.object members) := by
  intro first positions place rep rest root hfirst hrep hplace hadvance _
  have harrays : Step.elements (before ++ [Step.member index]) = Step.elements before := by
    rw [Step.elements_append, Step.elements_member]
    rfl
  have hinside : before ++ [Step.member index] = [] → root.asObject = root :=
    fun h => absurd h (List.append_ne_nil_of_right_ne_nil _ (List.cons_ne_nil _ _))
  have happ :=
    Slot.modifyAt_append (fill steps way w) before [Step.member index] place [] hplace root
  rw [Step.elements_member] at hadvance
  rcases h _ _ _ _ rest root hfirst (harrays.symm ▸ hrep) (harrays.symm ▸ hplace) hadvance
    hinside with ⟨inner, hinner, heq⟩
  refine ⟨inner, by rw [hinner, Step.elements_member], ?_⟩
  rw [List.append_nil] at happ
  rw [harrays, List.length_append, List.length_singleton, happ] at heq
  rw [stream, hv]
  simp only
  rw [heq, fill_member_some hv]
  rfl

theorem places_none {items : List Json} (hs : column.steps = before ++ .element :: steps)
    (hitems : presentItems items = []) :
    Places column before (.element :: steps) (.element :: way) (.array items) := by
  intro first positions place rep rest root hfirst hrep hplace hadvance _
  refine ⟨List.replicate _ 0, List.length_replicate, ?_⟩
  have hfilling : filling column (.absent rep before.length) = .ok Slot.asArray := by
    rw [filling, Triple.absent, getElem?_of_steps hs]
  rw [stream, fill_element, hitems]
  simp only [List.singleton_append]
  exact placeFrom_cons hs hfilling hfirst hrep rfl hplace hadvance rest root

-- An item of an array, of which the entries change the slot of the array in one place.
theorem Places.item {v : Json} (h : Places column (before ++ [.element]) steps way v)
    {first : Bool} {positions place : List Nat} {rep j : Nat} (rest : List Triple) (root : Slot)
    (hfirst : first = decide (rep = 0)) (hrep : rep ≤ Step.elements before + 1)
    (hplace : place.length = Step.elements before)
    (hadvance : advance rep positions =
      place ++ [j] ++ List.replicate (Step.elements steps) 0) :
    ∃ inner, inner.length = Step.elements steps ∧
      placeFrom column first positions
          (stream DataValue.ofJson? way v rep (before.length + 1) (Step.elements before + 1) ++ rest)
          root =
        placeFrom column false (place ++ j :: inner) rest
          (root.modifyAt (fun s => .array (Slot.modifyPlace (fill steps way v) j s.elements)) before
            place) := by
  have harrays : Step.elements (before ++ [Step.element]) = Step.elements before + 1 := by
    rw [Step.elements_append, Step.elements_element]
    rfl
  have hat : (place ++ [j]).length = Step.elements (before ++ [Step.element]) := by
    rw [List.length_append, List.length_singleton, hplace, harrays]
  -- Where the slot of an item is, the slot of its array is changed.
  have hitem : root.modifyAt (fill steps way v) (before ++ [Step.element]) (place ++ [j]) =
      root.modifyAt (fun s => .array (Slot.modifyPlace (fill steps way v) j s.elements)) before
        place :=
    Slot.modifyAt_append _ before [Step.element] place [j] hplace root
  have hinside : before ++ [Step.element] = [] → root.asObject = root :=
    fun h => absurd h (List.append_ne_nil_of_right_ne_nil _ (List.cons_ne_nil _ _))
  rcases h _ _ _ _ rest root hfirst (harrays.symm ▸ hrep) hat hadvance hinside with
    ⟨inner, hinner, heq⟩
  rw [hitem, harrays, List.length_append, List.length_singleton, List.append_assoc,
    List.singleton_append] at heq
  exact ⟨inner, hinner, heq⟩

-- The first item goes where the array is; each of the others repeats the array.
theorem places_some {items others : List Json} {w : Json}
    (hitems : presentItems items = w :: others)
    (h : ∀ x ∈ presentItems items, Places column (before ++ [.element]) steps way x) :
    Places column before (.element :: steps) (.element :: way) (.array items) := by
  intro first positions place rep rest root hfirst hrep hplace hadvance _
  rw [hitems] at h
  have hfirstAdvance : advance rep positions =
      place ++ [0] ++ List.replicate (Step.elements steps) 0 := by
    rw [hadvance, Step.elements_element, List.replicate_succ, List.append_assoc,
      List.singleton_append]
  have hothers : ∀ x ∈ others, ∀ j inner rest root,
      inner.length = Step.elements steps → ∃ inner', inner'.length = Step.elements steps ∧
      placeFrom column false (place ++ j :: inner)
          (stream DataValue.ofJson? way x (Step.elements before + 1)
            (before.length + 1) (Step.elements before + 1) ++ rest) root =
        placeFrom column false (place ++ (j + 1) :: inner') rest
          (root.modifyAt (fun s => .array (Slot.modifyPlace (fill steps way x) (j + 1)
            s.elements)) before place) := by
    intro x hx j inner rest root hinner
    have hnext : advance (Step.elements before + 1) (place ++ j :: inner) =
        place ++ [j + 1] ++ List.replicate (Step.elements steps) 0 := by
      rw [← hplace, advance_append, hinner, List.append_assoc, List.singleton_append]
    have hrepeats : false = decide (Step.elements before + 1 = 0) := by
      simp only [Nat.add_eq_zero_iff, Nat.one_ne_zero, and_false, decide_false]
    exact (h x (List.mem_cons_of_mem _ hx)).item rest root hrepeats (Nat.le_refl _) hplace hnext
  rcases (h w List.mem_cons_self).item
    (others.flatMap (fun x => stream DataValue.ofJson? way x
      (Step.elements before + 1) (before.length + 1) (Step.elements before + 1)) ++ rest)
    root hfirst (Nat.le_succ_of_le hrep) hplace hfirstAdvance with ⟨inner, hinner, heq⟩
  rw [stream, fill_element, hitems]
  simp only
  rw [List.append_assoc, heq, Step.elements_element]
  exact placeFrom_items hothers 0 inner hinner
    (fun s => .array (Slot.modifyPlace (fill steps way w) 0 s.elements)) (fun s => rfl) rest root

/-- The entries of a value, wherever it is in a record. -/
theorem placeFrom_stream {v : Json} (hm : List.Forall₂ Matches steps way) (hc : Conforms way v)
    (hs : column.steps = before ++ steps) : Places column before steps way v := by
  induction hm generalizing before v with
  | nil => exact places_leaf hc hs
  | @cons step hop steps way hstep hm ih =>
      have hinto : column.steps = before ++ [step] ++ steps := by
        rw [hs, List.append_assoc, List.singleton_append]
      cases hstep with
      | member index name =>
          cases v with
          | object members =>
              cases hv : present? members name with
              | none => exact places_absent hs hv
              | some w => exact places_member hv (ih (hc w hv) hinto)
          | null | bool | number | string | array => exact absurd hc (by
              simp only [Conforms, not_false_eq_true])
      | element =>
          cases v with
          | array items =>
              cases hitems : presentItems items with
              | nil => exact places_none hs hitems
              | cons w others => exact places_some hitems fun x hx => ih (hc x hx) hinto
          | null | bool | number | string | object => exact absurd hc (by
              simp only [Conforms, not_false_eq_true])

/-- The stream of a document changes the record by what the document has along the way
    of the column. -/
theorem place_stream {way : Way} {v : Json} (hm : List.Forall₂ Matches column.steps way)
    (hc : Conforms way v) {root : Slot} (hroot : root.asObject = root) :
    Assembly.place column (stream DataValue.ofJson? way v 0 0 0) root =
      .ok (fill column.steps way v root) := by
  have hstart : advance 0 (List.replicate column.maxRep 0) =
      [] ++ List.replicate (Step.elements column.steps) 0 := rfl
  rcases placeFrom_stream hm hc (List.nil_append column.steps).symm _ _ _ _ [] root
    (decide_eq_true rfl).symm (Nat.le_refl 0) rfl hstart (fun _ => hroot) with ⟨inner, -, heq⟩
  rw [List.append_nil] at heq
  rw [Assembly.place]
  exact heq

end Assembly

end NestedColumns
