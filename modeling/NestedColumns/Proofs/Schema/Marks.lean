import NestedColumns.Proofs.Schema.Merging
import Mathlib.Data.Set.Basic

/-!
# What a schema was made of

A schema is described by what was seen: a set of marks at the ends of ways, one for every
object, array and scalar of the documents. A place is there if anything was seen at it, and
what it is takes in all that was seen and is itself one of these. So the set determines the
schema but for the order of fields and the numbers of columns, and it does not say in which
order things were seen.

## Main definitions

* `Schema.Mark`: What is at a place, apart from its parts.
* `Schema.Marks`: What was seen, and where.
* `Schema.Node.Describes`: A shape is what some marks ask for.
* `Schema.Node.Adds`: What was seen in between two shapes.
* `Schema.Node.Builds`: One shape is built on another one, step by step.
* `Schema.Node.Alike`: Shapes that differ in the order of fields and in columns only.

## Theorems

* `Schema.Node.describes_some_iff`: A shape is described by what it is and by its parts.
* `Schema.Node.Describes.agreeing`: What describes a shape has no conflicts.
* `Schema.Node.Adds.child`: What was seen in one part was seen in the whole.
* `Schema.Node.Builds.adds`, `Schema.Node.Builds.counts`: What is built with was seen in
  between, and a number is given to every new column.
* `Schema.Node.alike_of_describes`: What was seen determines a shape.
-/

namespace NestedColumns

namespace Schema

/-- What is at a place, apart from its parts. -/
inductive Mark where
  | scalar (type : DataType)
  | object
  | array
  deriving DecidableEq, Repr

namespace Mark

/-- A place of the first mark takes in what has the second one. -/
def takes : Mark → Mark → Bool
  | .scalar a, .scalar b => a.accepts b
  | .object, .object => true
  | .array, .array => true
  | _, _ => false

/-- One place can take in both. -/
def Agrees (a b : Mark) : Prop :=
  a.takes b = true ∨ b.takes a = true

variable {a b m : Mark}

theorem takes_refl (a : Mark) : a.takes a = true := by
  cases a with
  | scalar type => cases type <;> rfl
  | object | array => rfl

theorem takes_antisymm (hab : a.takes b = true) (hba : b.takes a = true) : a = b := by
  cases a with
  | scalar s =>
      cases b with
      | scalar t => cases s <;> cases t <;> simp_all [takes, DataType.accepts]
      | object | array => cases hab
  | object | array => cases b <;> first | rfl | cases hab

-- Only a float takes in two marks, and these are itself and one that it takes in.
theorem agrees_of_takes (ha : m.takes a = true) (hb : m.takes b = true) : a.Agrees b := by
  cases m with
  | scalar t =>
      cases a with
      | object | array => cases ha
      | scalar s =>
          cases b with
          | object | array => cases hb
          | scalar u =>
              cases t <;> cases s <;> cases u <;> simp_all [takes, Agrees, DataType.accepts]
  | object | array => cases a <;> cases b <;> simp_all [takes, Agrees]

end Mark

/-- What was seen, and where. -/
abbrev Marks := Set (Way × Mark)

namespace Marks

variable {S T : Marks} {hop other : Hop}

/-- One mark, at the beginning. -/
def here (mark : Mark) : Marks :=
  {p | p = ([], mark)}

/-- What was seen, from one step further up. -/
def under (hop : Hop) (S : Marks) : Marks :=
  {p | ∃ way, p.1 = hop :: way ∧ (way, p.2) ∈ S}

/-- What was seen behind a step. -/
def below (hop : Hop) (S : Marks) : Marks :=
  {p | (hop :: p.1, p.2) ∈ S}

/-- No place would have to be two things. -/
def Agreeing (S : Marks) : Prop :=
  ∀ way a b, (way, a) ∈ S → (way, b) ∈ S → a.Agrees b

theorem mem_here {way : Way} {a mark : Mark} : (way, a) ∈ here mark ↔ way = [] ∧ a = mark := by
  rw [here, Set.mem_ofPred_eq, Prod.mk.injEq]

theorem mem_below {way : Way} {a : Mark} : (way, a) ∈ below hop S ↔ (hop :: way, a) ∈ S := Iff.rfl

theorem not_mem_under_nil {a : Mark} : ([], a) ∉ under hop S := by
  rintro ⟨way, hway, -⟩
  cases hway

theorem under_empty : under hop ∅ = ∅ := by
  ext ⟨way, a⟩
  simp [under]

theorem below_union : below hop (S ∪ T) = below hop S ∪ below hop T := rfl

theorem below_here {mark : Mark} : below hop (here mark) = ∅ := by
  ext ⟨way, a⟩
  rw [mem_below, mem_here]
  simp

theorem below_under_self : below hop (under hop T) = T := by
  ext ⟨way, a⟩
  simp [below, under]

theorem below_under_of_ne (h : other ≠ hop) : below other (under hop T) = ∅ := by
  ext ⟨way, a⟩
  simp [below, under, h]

theorem Agreeing.mono (h : T.Agreeing) (hs : S ⊆ T) : S.Agreeing :=
  fun way a b ha hb => h way a b (hs ha) (hs hb)

theorem Agreeing.below (h : S.Agreeing) (hop : Hop) : (below hop S).Agreeing :=
  fun way a b ha hb => h (hop :: way) a b ha hb

end Marks

namespace Node

open Marks

/-- What a shape is, apart from its parts. -/
def mark : Node → Mark
  | .leaf _ type => .scalar type
  | .object _ => .object
  | .array _ => .array

theorem exists_fields_of_agrees {node : Node} (h : node.mark.Agrees .object) :
    ∃ fields, node = .object fields := by
  cases node with
  | object fields => exact ⟨fields, rfl⟩
  | leaf | array => rcases h with h | h <;> cases h

theorem exists_element_of_agrees {node : Node} (h : node.mark.Agrees .array) :
    ∃ element, node = .array element := by
  cases node with
  | array element => exact ⟨element, rfl⟩
  | leaf | object => rcases h with h | h <;> cases h

theorem exists_leaf_of_agrees {node : Node} {type : DataType}
    (h : node.mark.Agrees (.scalar type)) : ∃ column type', node = .leaf column type' := by
  cases node with
  | leaf column type' => exact ⟨column, type', rfl⟩
  | object | array => rcases h with h | h <;> cases h

/-- The part of a shape behind a step. -/
def child? : Node → Hop → Option Node
  | .object fields, .member name => field? fields name
  | .array element, .element => some element
  | _, _ => none

/-- What the part at the end of a way is. -/
def markAt? (node? : Option Node) (way : Way) : Option Mark :=
  (node?.bind (·.at? way)).map mark

/-- A shape, or none, is what some marks ask for: there is a place wherever one was seen, and
    the place has been seen as what it is and takes in whatever else it was seen as. -/
def Describes (S : Marks) (node? : Option Node) : Prop :=
  ∀ way, match markAt? node? way with
    | none => ∀ mark, (way, mark) ∉ S
    | some mark => (way, mark) ∈ S ∧ ∀ m, (way, m) ∈ S → mark.takes m = true

variable {S T U : Marks} {node node' : Node} {node? : Option Node} {hop : Hop}

theorem at?_cons (node : Node) (hop : Hop) (way : Way) :
    node.at? (hop :: way) = (node.child? hop).bind (·.at? way) := by
  cases node <;> cases hop <;> rfl

theorem markAt?_nil (node? : Option Node) : markAt? node? [] = node?.map mark := by
  cases node? with
  | none => rfl
  | some node => rw [markAt?, Option.bind_some, at?_nil]

theorem markAt?_cons (node : Node) (hop : Hop) (way : Way) :
    markAt? (some node) (hop :: way) = markAt? (node.child? hop) way := by
  rw [markAt?, Option.bind_some, at?_cons, markAt?]

theorem markAt?_eq_scalar_iff {way : Way} {type : DataType} :
    markAt? (some node) way = some (.scalar type) ↔
      ∃ column, node.at? way = some (.leaf column type) := by
  rw [markAt?, Option.bind_some, Option.map_eq_some_iff]
  constructor
  · rintro ⟨place, hplace, hmark⟩
    cases place with
    | leaf column type' =>
        cases hmark
        exact ⟨column, hplace⟩
    | object | array => cases hmark
  · rintro ⟨column, hplace⟩
    exact ⟨_, hplace, rfl⟩

theorem describes_none_iff : Describes S none ↔ S = ∅ := by
  constructor
  · intro h
    ext ⟨way, m⟩
    exact iff_of_false (h way m) (Set.notMem_empty _)
  · rintro rfl way m
    exact Set.notMem_empty _

/-- A shape is described by what it is and by its parts. -/
theorem describes_some_iff : Describes S (some node) ↔
    (([], node.mark) ∈ S ∧ ∀ m, ([], m) ∈ S → node.mark.takes m = true) ∧
      ∀ hop, Describes (below hop S) (node.child? hop) := by
  constructor
  · intro h
    refine ⟨?_, fun hop way => ?_⟩
    · have hnil := h []
      rwa [markAt?_nil, Option.map_some] at hnil
    · have hcons := h (hop :: way)
      rwa [markAt?_cons] at hcons
  · rintro ⟨hnil, hcons⟩ way
    cases way with
    | nil =>
        rw [markAt?_nil, Option.map_some]
        exact hnil
    | cons hop way =>
        rw [markAt?_cons]
        exact hcons hop way

/-- What describes a shape has no conflicts. -/
theorem Describes.agreeing (h : Describes S node?) : S.Agreeing := by
  intro way a b ha hb
  have hway := h way
  split at hway
  · exact absurd ha (hway a)
  · exact Mark.agrees_of_takes (hway.2 a ha) (hway.2 b hb)

/-- What was seen in between two shapes, either of which may be none. -/
def Adds (T : Marks) (a b : Option Node) : Prop :=
  ∀ S, Describes S a → Describes (S ∪ T) b

theorem adds_none_iff : Adds T none node? ↔ Describes T node? := by
  constructor
  · intro h
    have hempty := h ∅ (describes_none_iff.mpr rfl)
    rwa [Set.empty_union] at hempty
  · intro h S hS
    rw [describes_none_iff.mp hS, Set.empty_union]
    exact h

namespace Adds

variable {a b c : Option Node}

theorem refl (a : Option Node) : Adds ∅ a a := by
  intro S h
  rw [Set.union_empty]
  exact h

theorem trans (h : Adds T a b) (h' : Adds U b c) : Adds (T ∪ U) a c := by
  intro S hS
  rw [← Set.union_assoc]
  exact h' _ (h S hS)

/-- What a shape takes in as it is leaves it so. -/
theorem same {m : Mark} (h : node.mark.takes m = true) : Adds (here m) (some node) (some node) := by
  intro S hS
  rw [describes_some_iff] at hS ⊢
  refine ⟨⟨Or.inl hS.1.1, fun m' hm' => ?_⟩, fun hop => ?_⟩
  · rcases hm' with hm' | hm'
    · exact hS.1.2 m' hm'
    · rw [(mem_here.mp hm').2]
      exact h
  · rw [below_union, below_here, Set.union_empty]
    exact hS.2 hop

/-- What was seen in one part was seen in the whole. -/
theorem child (hmark : node'.mark = node.mark)
    (hothers : ∀ other, other ≠ hop → node'.child? other = node.child? other)
    (h : Adds T (node.child? hop) (node'.child? hop)) :
    Adds (under hop T) (some node) (some node') := by
  intro S hS
  rw [describes_some_iff] at hS ⊢
  rw [hmark]
  refine ⟨⟨Or.inl hS.1.1, fun m hm => ?_⟩, fun other => ?_⟩
  · exact hS.1.2 m (hm.resolve_right not_mem_under_nil)
  · by_cases hother : other = hop
    · subst hother
      rw [below_union, below_under_self]
      exact h _ (hS.2 other)
    · rw [below_union, below_under_of_ne hother, Set.union_empty, hothers other hother]
      exact hS.2 other

end Adds

/-- A shape without parts was seen as what it is. -/
theorem Adds.alone (h : ∀ hop, node.child? hop = none) :
    Adds (here node.mark) none (some node) := by
  rw [adds_none_iff, describes_some_iff]
  refine ⟨⟨rfl, fun m hm => ?_⟩, fun hop => ?_⟩
  · rw [(mem_here.mp hm).2]
    exact Mark.takes_refl _
  · rw [below_here, h hop]
    exact describes_none_iff.mpr rfl

/-- A column of whole numbers that is widened was seen as both. -/
theorem Adds.widened {column : Nat} {type found wider : DataType}
    (hn : ¬type.accepts found = true) (hw : type.widen found = some wider) :
    Adds (here (.scalar found)) (some (.leaf column type)) (some (.leaf column wider)) := by
  rcases widen_of_refused hn hw with ⟨rfl, rfl⟩
  have hfound : found = .float := by cases found <;> first | rfl | cases hw
  subst hfound
  intro S hS
  rw [describes_some_iff] at hS ⊢
  refine ⟨⟨Or.inr rfl, fun m hm => ?_⟩, fun hop => ?_⟩
  · rcases hm with hm | hm
    · -- What a whole number takes in, a float does.
      have htakes := hS.1.2 m hm
      cases m with
      | scalar type => cases type <;> first | rfl | cases htakes
      | object | array => cases htakes
    · rw [(mem_here.mp hm).2]
      rfl
  · rw [below_union, below_here, Set.union_empty]
    exact hS.2 hop

variable {fields : List (String × Node)} {name : String} {old : Node}

/-- What a member shows was seen in its object, if its field is there already. -/
theorem Adds.setField (hf : field? fields name = some old) (h : Adds T (some old) (some node)) :
    Adds (under (.member name) T) (some (.object fields))
      (some (.object (Schema.setField name node fields))) := by
  refine .child rfl (fun other hother => ?_) ?_
  · cases other with
    | element => rfl
    | member other =>
        exact field?_setField_of_ne (fun heq => hother (congrArg Hop.member heq)) node fields
  · rw [child?, child?, hf, field?_setField hf]
    exact h

/-- The same, if its field is new. -/
theorem Adds.append (hf : field? fields name = none) (h : Adds T none (some node)) :
    Adds (under (.member name) T) (some (.object fields))
      (some (.object (fields ++ [(name, node)]))) := by
  refine .child rfl (fun other hother => ?_) ?_
  · cases other with
    | element => rfl
    | member other =>
        exact field?_append_of_ne (fun heq => hother (congrArg Hop.member heq)) node fields
  · rw [child?, child?, hf, field?_append hf]
    exact h

/-- What items show was seen in their array. -/
theorem Adds.array {element element' : Node} (h : Adds T (some element) (some element')) :
    Adds (under .element T) (some (.array element)) (some (.array element')) := by
  refine .child rfl (fun other hother => ?_) h
  cases other with
  | element => exact absurd rfl hother
  | member name => rfl

/-- An array was seen as one, and its elements as what its items show. -/
theorem Adds.newArray {element : Node} (h : Adds T none (some element)) :
    Adds (here .array ∪ under .element T) none (some (.array element)) := by
  rw [adds_none_iff] at h ⊢
  rw [describes_some_iff]
  refine ⟨⟨Or.inl rfl, fun m hm => ?_⟩, fun hop => ?_⟩
  · rw [(mem_here.mp (hm.resolve_right not_mem_under_nil)).2]
    rfl
  · cases hop with
    | element =>
        rw [below_union, below_here, below_under_self, Set.empty_union]
        exact h
    | member name =>
        have hne : Hop.member name ≠ .element := nofun
        rw [below_union, below_here, below_under_of_ne hne, Set.empty_union]
        exact describes_none_iff.mpr rfl

/-! ### Building -/

/-- With what was seen, the second shape is built on the first one, either of which may be none,
    and the number of the next column goes from `n` to `n'`. -/
inductive Builds : Marks → Option Node → Nat → Option Node → Nat → Prop where
  | refl (a : Option Node) (n : Nat) : Builds ∅ a n a n
  | trans {S T : Marks} {a b c : Option Node} {n n' n'' : Nat} (first : Builds S a n b n')
      (second : Builds T b n' c n'') : Builds (S ∪ T) a n c n''
  | same {node : Node} {m : Mark} (takes : node.mark.takes m = true) (n : Nat) :
      Builds (here m) (some node) n (some node) n
  | widened {type found wider : DataType} (refused : ¬type.accepts found = true)
      (widen : type.widen found = some wider) (column n : Nat) :
      Builds (here (.scalar found)) (some (.leaf column type)) n (some (.leaf column wider)) n
  | leaf (type : DataType) (n : Nat) :
      Builds (here (.scalar type)) none n (some (.leaf n type)) (n + 1)
  | object (n : Nat) : Builds (here .object) none n (some (.object [])) n
  | setField {S : Marks} {fields : List (String × Node)} {name : String} {old node : Node}
      {n n' : Nat} (field : field? fields name = some old)
      (builds : Builds S (some old) n (some node) n') :
      Builds (under (.member name) S) (some (.object fields)) n
        (some (.object (Schema.setField name node fields))) n'
  | append {S : Marks} {fields : List (String × Node)} {name : String} {node : Node} {n n' : Nat}
      (field : field? fields name = none) (builds : Builds S none n (some node) n') :
      Builds (under (.member name) S) (some (.object fields)) n
        (some (.object (fields ++ [(name, node)]))) n'
  | array {S : Marks} {element element' : Node} {n n' : Nat}
      (builds : Builds S (some element) n (some element') n') :
      Builds (under .element S) (some (.array element)) n (some (.array element')) n'
  | newArray {S : Marks} {element : Node} {n n' : Nat}
      (builds : Builds S none n (some element) n') :
      Builds (here .array ∪ under .element S) none n (some (.array element)) n'

/-- How many columns a shape has. -/
def count (node? : Option Node) : Nat :=
  (node?.map (·.columns.length)).getD 0

namespace Builds

variable {a b : Option Node} {n n' : Nat}

/-- What is built with was seen in between. -/
theorem adds (h : Builds S a n b n') : Adds S a b := by
  induction h with
  | refl => exact .refl _
  | trans _ _ ih ih' => exact ih.trans ih'
  | same takes => exact .same takes
  | widened refused widen => exact .widened refused widen
  | leaf => exact .alone fun hop => by cases hop <;> rfl
  | object => exact .alone fun hop => by cases hop <;> rfl
  | setField field _ ih => exact .setField field ih
  | append field _ ih => exact .append field ih
  | array _ ih => exact .array ih
  | newArray _ ih => exact .newArray ih

/-- Every number that is given away is that of a column. -/
theorem counts (h : Builds S a n b n') : count b + n = count a + n' := by
  induction h with
  | refl | same | widened | object => rfl
  | trans _ _ ih ih' => omega
  | leaf type n =>
      have hone : count (some (.leaf n type)) = 1 := rfl
      have hzero : count none = 0 := rfl
      omega
  | @setField _ fields _ _ node _ _ field _ ih =>
      rcases setField_split field node with ⟨before, rest, hfields, hset⟩
      rw [hset, hfields]
      simp only [count, Option.map_some, Option.getD_some, columns, columnsOf_append, columnsOf,
        List.length_append] at ih ⊢
      omega
  | append _ _ ih =>
      simp only [count, Option.map_some, Option.map_none, Option.getD_some, Option.getD_none,
        columns, columnsOf_append, columnsOf, List.length_append, List.length_nil] at ih ⊢
      omega
  | array _ ih | newArray _ ih => exact ih

/-- A shape that is built on was seen as what it is as well. -/
theorem marked (h : Builds S (some node) n b n') :
    Builds (here node.mark ∪ S) (some node) n b n' :=
  (Builds.same (Mark.takes_refl _) n).trans h

/-- If nothing was built, nothing was seen. -/
theorem of_none (h : Builds S none n none n') : S = ∅ ∧ n' = n := by
  have hcounts := h.counts
  exact ⟨describes_none_iff.mp (adds_none_iff.mp h.adds), by omega⟩

end Builds

/-- An object without fields is described by its mark. -/
theorem describes_object_nil : Describes (here .object) (some (.object [])) :=
  adds_none_iff.mp (Builds.object 0).adds

/-! ### What was seen determines a shape -/

theorem markAt?_eq_of_describes {a b : Option Node} (ha : Describes S a) (hb : Describes S b)
    (way : Way) : markAt? a way = markAt? b way := by
  have hwa := ha way
  have hwb := hb way
  cases hma : markAt? a way with
  | none =>
      rw [hma] at hwa
      cases hmb : markAt? b way with
      | none => rfl
      | some m =>
          rw [hmb] at hwb
          exact absurd hwb.1 (hwa m)
  | some m =>
      rw [hma] at hwa
      cases hmb : markAt? b way with
      | none =>
          rw [hmb] at hwb
          exact absurd hwa.1 (hwb m)
      | some m' =>
          rw [hmb] at hwb
          rw [Mark.takes_antisymm (hwa.2 m' hwb.1) (hwb.2 m hwa.1)]

mutual

/-- The shapes are the same but for the order of fields and the numbers of columns. -/
def Alike : Node → Node → Prop
  | .leaf _ type, .leaf _ type' => type = type'
  | .object fields, .object fields' =>
    (fields.map (·.1)).Perm (fields'.map (·.1)) ∧ AlikeFields fields fields'
  | .array element, .array element' => Alike element element'
  | _, _ => False

/-- Each field is like the one that has its name. -/
def AlikeFields : List (String × Node) → List (String × Node) → Prop
  | [], _ => True
  | (name, node) :: rest, fields =>
    (∃ other, field? fields name = some other ∧ Alike node other) ∧ AlikeFields rest fields

end

theorem alikeFields_iff {fields others : List (String × Node)} :
    AlikeFields fields others ↔
      ∀ f ∈ fields, ∃ other, field? others f.1 = some other ∧ Alike f.2 other := by
  induction fields with
  | nil => simp only [AlikeFields, List.not_mem_nil, false_implies, implies_true]
  | cons f rest ih => rw [AlikeFields, ih, List.forall_mem_cons]

theorem mark_eq_of_markAt? (h : ∀ way, markAt? (some node) way = markAt? (some node') way) :
    node.mark = node'.mark := by
  have hnil := h []
  rwa [markAt?_nil, markAt?_nil, Option.map_some, Option.map_some, Option.some.injEq] at hnil

-- There is a field of a name if anything is at the end of the empty way below it.
theorem mem_names_iff_of_markAt? {fields fields' : List (String × Node)} {name : String}
    (h : ∀ way, markAt? (field? fields name) way = markAt? (field? fields' name) way) :
    name ∈ fields.map (·.1) ↔ name ∈ fields'.map (·.1) := by
  have hnone := congrArg Option.isNone (h [])
  rw [markAt?_nil, markAt?_nil, Option.isNone_map, Option.isNone_map, Bool.eq_iff_iff,
    Option.isNone_iff_eq_none, Option.isNone_iff_eq_none, field?_eq_none_iff,
    field?_eq_none_iff] at hnone
  exact not_iff_not.mp hnone

/-- Shapes are alike if the same is at the end of every way. -/
theorem alike_of_markAt? (hu : node.NamesUnique) (hu' : node'.NamesUnique)
    (h : ∀ way, markAt? (some node) way = markAt? (some node') way) : Alike node node' := by
  induction node using inductionOn generalizing node' with
  | leaf column type =>
      cases node' with
      | leaf column' type' => exact Mark.scalar.inj (mark_eq_of_markAt? h)
      | object | array => cases mark_eq_of_markAt? h
  | array element ih =>
      cases node' with
      | array element' =>
          refine ih hu hu' fun way => ?_
          have hway := h (.element :: way)
          rwa [markAt?_cons, markAt?_cons] at hway
      | leaf | object => cases mark_eq_of_markAt? h
  | object fields ih =>
      cases node' with
      | leaf | array => cases mark_eq_of_markAt? h
      | object fields' =>
          have hfield : ∀ name way, markAt? (field? fields name) way =
              markAt? (field? fields' name) way := by
            intro name way
            have hway := h (.member name :: way)
            rwa [markAt?_cons, markAt?_cons] at hway
          have hnames := fun name => mem_names_iff_of_markAt? (hfield name)
          refine ⟨(List.perm_ext_iff_of_nodup hu.1 hu'.1).mpr hnames, alikeFields_iff.mpr ?_⟩
          intro f hf
          have hsome : field? fields' f.1 ≠ none := fun hnone =>
            field?_eq_none_iff.mp hnone ((hnames f.1).mp (List.mem_map_of_mem hf))
          rcases Option.ne_none_iff_exists'.mp hsome with ⟨other, hother⟩
          have hpart := namesUniqueOf_iff.mp hu.2 f hf
          have hpart' := namesUniqueOf_iff.mp hu'.2 _ (mem_of_field? hother)
          refine ⟨other, hother, ih f hf hpart hpart' fun way => ?_⟩
          rw [← field?_of_mem hu.1 hf, ← hother]
          exact hfield f.1 way

/-- What was seen determines a shape. -/
theorem alike_of_describes (hu : node.NamesUnique) (hu' : node'.NamesUnique)
    (h : Describes S (some node)) (h' : Describes S (some node')) : Alike node node' :=
  alike_of_markAt? hu hu' (markAt?_eq_of_describes h h')

end Node

end Schema

end NestedColumns
