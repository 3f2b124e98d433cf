import NestedColumns.Proofs.Documents.Fitting

/-!
# Documents and later schemas

A document that was stored under an early schema is shown under a later one. If all
its members had fields then, it fits the later schema as well, and may as well have
been stored now. What is shown of it is the same, unless a member that has a leaf now
had none then: its column says nothing of the old document, and neither does any
other.

## Main definitions

* `Json.Holds`: A document goes as far as a way.
* `Json.Known`: Every member has a field.
* `Json.Settled`: The members that have leaves in one shape had some in another.

## Theorems

* `Json.Fits.grow`: A document that is known fits later shapes.
* `Json.shown_kept_iff`: When it does not show which shape a document was stored by.
-/

namespace NestedColumns

namespace Json

open Schema (Node field?)

/-- A document goes as far as a way: each step leads to a member or an item that is
    not `null`. -/
inductive Holds : Json → Way → Prop where
  | here (v : Json) : Holds v []
  | member {members : List (String × Json)} {name : String} {v : Json} {way : Way}
      (present : present? members name = some v) (further : Holds v way) :
      Holds (.object members) (.member name :: way)
  | item {items : List Json} {v : Json} {way : Way} (present : v ∈ presentItems items)
      (further : Holds v way) : Holds (.array items) (.element :: way)

/-- Every member of a document, at every level, has a field. -/
def Known (past : Node) (v : Json) : Prop :=
  ∀ (way : Way) (name : String), Holds v (way ++ [Hop.member name]) →
    (past.at? (way ++ [Hop.member name])).isSome = true

/-- Of the members of a document, those with a leaf in the one shape had a leaf in the
    other. -/
def Settled (past now : Node) (v : Json) : Prop :=
  ∀ (way : Way) (name : String) (field : Node), Holds v (way ++ [Hop.member name]) →
    now.at? (way ++ [Hop.member name]) = some field → field.hasLeaf = true →
      ∃ old, past.at? (way ++ [Hop.member name]) = some old ∧ old.hasLeaf = true

theorem known_object_iff {fields : List (String × Node)} {members : List (String × Json)} :
    Known (.object fields) (.object members) ↔ ∀ name w, present? members name = some w →
      ∃ field, field? fields name = some field ∧ Known field w := by
  constructor
  · intro h name w hw
    have hfield := h [] name (.member hw (.here w))
    rw [List.nil_append, Node.at?_member] at hfield
    cases hf : field? fields name with
    | none =>
        rw [hf, Option.bind_none] at hfield
        cases hfield
    | some field =>
        refine ⟨field, rfl, fun way n hway => ?_⟩
        have hall := h (.member name :: way) n (.member hw hway)
        simpa only [List.cons_append, Node.at?_member, hf, Option.bind_some] using hall
  · intro h way n hway
    cases way with
    | nil =>
        cases hway with
        | member hw _ =>
            rcases h n _ hw with ⟨field, hf, -⟩
            rw [List.nil_append, Node.at?_member, hf, Option.bind_some, Node.at?_nil]
            rfl
    | cons hop way =>
        cases hway with
        | member hw further =>
            rcases h _ _ hw with ⟨field, hf, hk⟩
            rw [List.cons_append, Node.at?_member, hf, Option.bind_some]
            exact hk way n further

-- A document that is known fits the shapes that grow from its own: its members keep
-- their fields, and no field changes its kind.
theorem Fits.grow {bound : Nat} {past now : Node} {v : Json} (h : Fits past v)
    (hg : past.GrowsTo bound now) (hn : now.NamesUnique) (hk : Known past v) :
    Fits now v := by
  induction past using Node.inductionOn generalizing now v with
  | leaf column type =>
      rcases Node.growsTo_leaf.mp hg with ⟨type', rfl, htype⟩
      rcases fits_leaf.mp h with ⟨x, hx, ha⟩
      refine fits_leaf.mpr ⟨x, hx, ?_⟩
      rcases htype with rfl | ⟨rfl, rfl⟩
      · exact ha
      · cases hx' : x.type <;> rw [hx'] at ha <;> first | rfl | cases ha
  | array element ih =>
      rcases Node.growsTo_array.mp hg with ⟨element', rfl, hg⟩
      rcases fits_array.mp h with ⟨items, rfl, hfits⟩
      refine fits_array.mpr ⟨items, rfl, fun w hw => ih (hfits w hw) hg hn ?_⟩
      exact fun way name hway => hk (.element :: way) name (.item hw hway)
  | object fields ih =>
      rcases Node.growsTo_object.mp hg with ⟨fields', rfl, hg⟩
      rcases fits_object.mp h with ⟨members, rfl, hcovered, hfits⟩
      refine fits_object.mpr ⟨members, rfl, ?_, ?_⟩
      · intro m hm hdata
        rcases Option.isSome_iff_exists.mp (hcovered m hm hdata) with ⟨field, hfield⟩
        rcases hg.field? hfield with ⟨field', hfield', -⟩
        rw [hfield']
        rfl
      · rw [fitsFields_iff]
        intro f hf w hw
        rcases known_object_iff.mp hk f.1 w hw with ⟨field, hfield, hkw⟩
        rcases hg.field? hfield with ⟨field', hfield', hgrow⟩
        have hnow := Schema.field?_of_mem hn.1 hf
        rw [hfield', Option.some.injEq] at hnow
        subst hnow
        have hin := Schema.mem_of_field? hfield
        exact ih _ hin (fitsFields_iff.mp hfits _ hin w hw) hgrow
          (Node.namesUniqueOf_iff.mp hn.2 f hf) hkw

/-! ### What is shown of them -/

section

variable {stored fields : List (String × Node)} {element element' : Node} {v : Json}

theorem settled_array_iff : Settled (.array element) (.array element') v ↔
    ∀ items, v = .array items → ∀ w ∈ presentItems items, Settled element element' w := by
  constructor
  · rintro h items rfl w hw way name field hway
    exact h (.element :: way) name field (.item hw hway)
  · intro h way name field hway hat hl
    cases way with
    | nil => cases hat
    | cons hop way =>
        cases hway with
        | member => cases hat
        | item hw further => exact h _ rfl _ hw way name field further hat hl

theorem settled_object_iff : Settled (.object stored) (.object fields) v ↔
    ∀ members, v = .object members → ∀ f ∈ fields, field? fields f.1 = some f.2 →
      f.2.hasLeaf = true → ∀ w, present? members f.1 = some w →
        ∃ past, field? stored f.1 = some past ∧ past.hasLeaf = true ∧ Settled past f.2 w := by
  constructor
  · rintro h members rfl f - hf hl w hw
    have hhere : (Node.object fields).at? ([] ++ [Hop.member f.1]) = some f.2 := by
      rw [List.nil_append, Node.at?_member, hf, Option.bind_some, Node.at?_nil]
    rcases h [] f.1 f.2 (.member hw (.here w)) hhere hl with ⟨old, hold, hleaf⟩
    rw [List.nil_append, Node.at?_member, Option.bind_eq_some_iff] at hold
    rcases hold with ⟨past, hpast, hend⟩
    rw [Node.at?_nil, Option.some.injEq] at hend
    refine ⟨past, hpast, hend ▸ hleaf, fun way name field hway hat hl => ?_⟩
    have hall := h (.member f.1 :: way) name field (.member hw hway)
    simp only [List.cons_append, Node.at?_member, hf, hpast, Option.bind_some] at hall
    exact hall hat hl
  · intro h way name field hway hat hl
    cases hholds : way ++ [Hop.member name] with
    | nil => exact absurd hholds (List.append_ne_nil_of_right_ne_nil _ (List.cons_ne_nil _ _))
    | cons hop rest =>
        rw [hholds] at hway hat
        cases hway with
        | item => cases hat
        | @member members first w _ hw further =>
            rw [Node.at?_member, Option.bind_eq_some_iff] at hat
            rcases hat with ⟨next, hnext, hat⟩
            have hleaf := Node.hasLeaf_of_at? hat hl
            rcases h members rfl (first, next) (Schema.mem_of_field? hnext) hnext hleaf w hw with
              ⟨past, hpast, hpl, hs⟩
            rw [Node.at?_member, hpast, Option.bind_some]
            cases way with
            | nil =>
                rw [List.nil_append, List.cons.injEq] at hholds
                rw [← hholds.2]
                exact ⟨past, Node.at?_nil past, hpl⟩
            | cons hop way =>
                rw [List.cons_append, List.cons.injEq] at hholds
                rw [← hholds.2] at hat further ⊢
                exact hs way name field further hat hl

end

-- A field with a leaf is shown of what two schemas kept, or is not, in the same way.
theorem gather_eq_iff {take take' : String × Node → Option Json}
    {fields : List (String × Node)} (hd : (fields.map (·.1)).Nodup) :
    gather take fields = gather take' fields ↔ ∀ f ∈ fields, take f = take' f := by
  refine ⟨fun h f hf => ?_, gather_congr⟩
  have hfield := congrArg (member? · f.1) h
  simp only [member?_gather _ hd, Schema.field?_of_mem hd hf, Option.bind_some] at hfield
  exact hfield

-- A member is shown of what two schemas kept in the same way if the earlier one knew it, and
-- not at all if it is absent.
theorem shown_member_iff {past : Option Node} {now field : Node} {v : Option Json}
    (hnow : field.hasLeaf = true → now.hasLeaf = true)
    (hsame : ∀ old, past = some old → ∀ w,
      shown field (kept old w) = shown field (kept now w) ↔ Settled old field w) :
    (if field.hasLeaf then (past.bind fun old =>
          if old.hasLeaf then v.map (kept old) else none).map (shown field) else none) =
        (if field.hasLeaf then (if now.hasLeaf then v.map (kept now) else none).map (shown field)
          else none) ↔
      (field.hasLeaf = true → ∀ w, v = some w →
        ∃ old, past = some old ∧ old.hasLeaf = true ∧ Settled old field w) := by
  cases hleaf : field.hasLeaf with
  | false => exact iff_of_true rfl fun hl => by cases hl
  | true =>
      rw [if_pos rfl, if_pos rfl, if_pos (hnow hleaf)]
      simp only [forall_const]
      cases v with
      | none =>
          refine iff_of_true ?_ fun w hw => by cases hw
          cases past <;> simp only [Option.bind_none, Option.bind_some, Option.map_none, ite_self]
      | some w =>
          simp only [Option.some.injEq, forall_eq', Option.map_some]
          cases past with
          | none => simp only [Option.bind_none, Option.map_none, reduceCtorEq, false_and,
              exists_false]
          | some old =>
              rw [Option.bind_some]
              cases hold : old.hasLeaf with
              | false =>
                  simp only [Bool.false_eq_true, if_false, Option.map_none, reduceCtorEq,
                    Option.some.injEq, exists_eq_left', hold, false_and]
              | true =>
                  simp only [if_true, Option.map_some, Option.some.injEq, exists_eq_left', hold,
                    true_and]
                  exact hsame old rfl w

-- What is shown is the same exactly if the members with a leaf now had one then. The
-- induction is on what is shown: a member outside of it does not matter.
theorem shown_kept_iff {bound : Nat} {past now part : Node} (hg : past.GrowsTo bound now)
    (hu : past.NamesUnique) (hn : now.NamesUnique) (hp : part.PartOf now)
    (hup : part.NamesUnique) {v : Json} :
    shown part (kept past v) = shown part (kept now v) ↔ Settled past part v := by
  induction part using Node.inductionOn generalizing past now v with
  | leaf column type =>
      rw [Node.partOf_leaf.mp hp] at hg
      rcases Node.growsTo_leaf_right.mp hg with ⟨type', rfl, -⟩
      rw [Node.partOf_leaf.mp hp]
      have hsame : kept (.leaf column type') v = kept (.leaf column type) v := by
        cases v <;> rfl
      refine ⟨fun _ way name field _ hat => ?_, fun _ => by rw [hsame]⟩
      cases way with
      | nil => cases hat
      | cons hop way =>
          rcases Node.at?_cons_some hat with ⟨_, _, _, hleaf, -⟩ | ⟨_, hleaf, -⟩ <;> cases hleaf
  | array element ih =>
      rcases Node.partOf_array.mp hp with ⟨whole, rfl, hpart⟩
      rcases Node.growsTo_array_right.mp hg with ⟨stored, rfl, hgrow⟩
      have hstored : stored.NamesUnique := hu
      have hwhole : whole.NamesUnique := hn
      have helement : element.NamesUnique := hup
      rw [settled_array_iff]
      cases v with
      | array items =>
          rw [kept, kept, shown, shown, presentItems_map_kept, presentItems_map_kept, List.map_map,
            List.map_map, array.injEq, List.map_inj_left]
          simp only [array.injEq, forall_eq']
          exact forall₂_congr fun w _ => ih hgrow hstored hwhole hpart helement
      | null | bool | number | string | object =>
          exact iff_of_true rfl fun items hitems => by cases hitems
  | object fields ih =>
      rcases Node.partOf_object.mp hp with ⟨whole, rfl, hp⟩
      rcases Node.growsTo_object_right.mp hg with ⟨stored, rfl, hg⟩
      rw [settled_object_iff]
      cases v with
      | object members =>
          rw [kept, kept, shown, shown, object.injEq, shownMembers_eq, shownMembers_eq,
            gather_eq_iff hup.1]
          simp only [object.injEq, forall_eq']
          refine forall₂_congr fun f hf => ?_
          rcases Node.partOfFields_iff.mp hp f hf with ⟨now, hnow, hpart⟩
          rw [present?_keptMembers hu.1, present?_keptMembers hn.1, hnow, Option.bind_some,
            Schema.field?_of_mem hup.1 hf]
          have hsame : ∀ past, field? stored f.1 = some past → ∀ w,
              shown f.2 (kept past w) = shown f.2 (kept now w) ↔ Settled past f.2 w := by
            intro past hpast w
            rcases hg.field? hpast with ⟨now', hnow', hgrow⟩
            rw [hnow, Option.some.injEq] at hnow'
            subst hnow'
            exact ih f hf hgrow (Node.namesUniqueOf_iff.mp hu.2 _ (Schema.mem_of_field? hpast))
              (Node.namesUniqueOf_iff.mp hn.2 _ (Schema.mem_of_field? hnow)) hpart
              (Node.namesUniqueOf_iff.mp hup.2 f hf)
          have hmember := shown_member_iff (v := present? members f.1)
            (fun hl => hpart.hasLeaf hl) hsame
          exact ⟨fun h _ => hmember.mp h, fun h => hmember.mpr (h rfl)⟩
      | null | bool | number | string | array =>
          exact iff_of_true rfl fun members hmembers => by cases hmembers

end Json

end NestedColumns
