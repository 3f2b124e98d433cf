import NestedColumns.Json.Reader
import NestedColumns.Proofs.Outcome
import Mathlib.Data.List.Nodup

/-!
# Names in documents

A text may repeat a name in an object, but a document that is read has each name once: a
member whose name was there takes its place.

## Main definitions

* `Json.NamesUnique`: No object in a document has two members of one name.

## Theorems

* `Json.read?_namesUnique`: So it is in documents that were read.
-/

namespace NestedColumns

namespace Json

mutual

/-- No object in a document has two members of one name. -/
def NamesUnique : Json → Prop
  | .array items => NamesUniqueItems items
  | .object members => (members.map (·.1)).Nodup ∧ NamesUniqueMembers members
  | _ => True

/-- The same for the items of an array. -/
def NamesUniqueItems : List Json → Prop
  | [] => True
  | item :: rest => NamesUnique item ∧ NamesUniqueItems rest

/-- The same below the members of an object. -/
def NamesUniqueMembers : List (String × Json) → Prop
  | [] => True
  | (_, v) :: rest => NamesUnique v ∧ NamesUniqueMembers rest

end

theorem namesUniqueItems_iff {items : List Json} :
    NamesUniqueItems items ↔ ∀ item ∈ items, item.NamesUnique := by
  induction items with
  | nil => simp only [NamesUniqueItems, List.not_mem_nil, false_implies, implies_true]
  | cons item rest ih => rw [NamesUniqueItems, ih, List.forall_mem_cons]

theorem namesUniqueMembers_iff {members : List (String × Json)} :
    NamesUniqueMembers members ↔ ∀ m ∈ members, m.2.NamesUnique := by
  induction members with
  | nil => simp only [NamesUniqueMembers, List.not_mem_nil, false_implies, implies_true]
  | cons m rest ih => rw [NamesUniqueMembers, ih, List.forall_mem_cons]

variable {α : Type}

-- Only strings, numbers and literals are scalars.
theorem scanScalar_namesUnique {cs rest : List Char} {v : Json}
    (h : scanScalar cs = some (.ok (v, rest))) : v.NamesUnique := by
  rw [scanScalar.eq_def] at h
  split at h
  · cases h
  · rcases Outcome.map_eq_ok.mp (Option.some.inj h) with ⟨⟨s, _⟩, -, hv⟩
    cases hv
    trivial
  · split at h
    · rcases Outcome.map_eq_ok.mp (Option.some.inj h) with ⟨⟨n, _⟩, -, hv⟩
      cases hv
      trivial
    · rw [scanLiteral.eq_def] at h
      split at h
      · rcases Outcome.map_eq_ok.mp (Option.some.inj h) with ⟨_, -, hv⟩
        cases hv
        trivial
      · rcases Outcome.map_eq_ok.mp (Option.some.inj h) with ⟨_, -, hv⟩
        cases hv
        trivial
      · rcases Outcome.map_eq_ok.mp (Option.some.inj h) with ⟨_, -, hv⟩
        cases hv
        trivial
      · cases h

theorem map_fst_setMember (name : String) (v : Json) (members : List (String × Json)) :
    (setMember name v members).map (·.1) =
      if name ∈ members.map (·.1) then members.map (·.1) else members.map (·.1) ++ [name] := by
  induction members with
  | nil => rfl
  | cons m rest ih =>
      rcases m with ⟨n, w⟩
      rw [setMember]
      by_cases hn : n = name
      · rw [if_pos hn, List.map_cons, List.map_cons, if_pos (List.mem_cons.mpr (Or.inl hn.symm))]
      · rw [if_neg hn, List.map_cons, ih, List.map_cons]
        by_cases hmem : name ∈ rest.map (·.1)
        · rw [if_pos hmem, if_pos (List.mem_cons_of_mem _ hmem)]
        · rw [if_neg hmem, if_neg fun h => (List.mem_cons.mp h).elim (fun h => hn h.symm) hmem,
            List.cons_append]

theorem setMember_namesUnique {name : String} {v : Json} {members : List (String × Json)}
    (hv : v.NamesUnique) (h : (object members).NamesUnique) :
    (object (setMember name v members)).NamesUnique := by
  constructor
  · rw [map_fst_setMember]
    split
    · exact h.1
    · next hnew =>
      rw [List.nodup_append]
      refine ⟨h.1, List.nodup_singleton _, fun a ha b hb heq => ?_⟩
      rw [heq, List.mem_singleton.mp hb] at ha
      exact hnew ha
  · have hbelow := h.2
    clear h
    induction members with
    | nil => exact ⟨hv, trivial⟩
    | cons m rest ih =>
        rcases m with ⟨n, w⟩
        rw [setMember]
        by_cases hn : n = name
        · rw [if_pos hn]
          exact ⟨hv, hbelow.2⟩
        · rw [if_neg hn]
          exact ⟨hbelow.1, ih hbelow.2⟩

-- What is true of every part that is taken in is true of the whole.
theorem scanItems_induction {item : List Char → Scan α} {motive : α → Prop}
    (hitem : ∀ cs a rest, item cs = .ok (a, rest) → motive a) {fuel : Nat} {first : Bool}
    {read items : List α} {cs rest : List Char} (hread : ∀ a ∈ read, motive a)
    (h : scanItems item fuel first read cs = .ok (items, rest)) : ∀ a ∈ items, motive a := by
  induction fuel generalizing first read cs with
  | zero => cases h
  | succ fuel ih =>
      rw [scanItems] at h
      split at h
      · cases h
      · cases h
        exact fun a ha => hread a (List.mem_reverse.mp ha)
      · split at h
        · cases h
        · next a rest ha =>
          exact ih (List.forall_mem_cons.mpr ⟨hitem _ _ _ ha, hread⟩) h

theorem scanMembers_induction {member : α → String → List Char → Scan α} {motive : α → Prop}
    (hmember : ∀ a name cs a' rest, motive a → member a name cs = .ok (a', rest) → motive a')
    {fuel : Nat} {first : Bool} {a a' : α} {cs rest : List Char} (ha : motive a)
    (h : scanMembers member fuel first a cs = .ok (a', rest)) : motive a' := by
  induction fuel generalizing first a cs with
  | zero => cases h
  | succ fuel ih =>
      rw [scanMembers] at h
      split at h
      · cases h
      · cases h
        exact ha
      · split at h
        · cases h
        · next next rest hnext => exact ih (hmember _ _ _ _ _ ha hnext) h

theorem document_namesUnique {room : Nat} {cs rest : List Char} {v : Json}
    (h : document room cs = .ok (v, rest)) : v.NamesUnique := by
  induction room using Nat.strongRecOn generalizing cs rest v with
  | ind room ih =>
  rw [document.eq_def] at h
  split at h
  split at h
  · cases h
  · cases h
  · rcases Outcome.map_eq_ok.mp h with ⟨⟨items, _⟩, hitems, hv⟩
    cases hv
    exact namesUniqueItems_iff.mpr (scanItems_induction
      (fun _ _ _ hitem => ih _ (Nat.lt_succ_self _) hitem)
      (fun a ha => absurd ha List.not_mem_nil) hitems)
  · cases h
  · rcases Outcome.map_eq_ok.mp h with ⟨⟨members, _⟩, hmembers, hv⟩
    cases hv
    have hempty : (object []).NamesUnique := ⟨List.nodup_nil, trivial⟩
    refine scanMembers_induction (motive := fun members => (object members).NamesUnique)
      (fun members name _ _ _ hold hmember => ?_) hempty hmembers
    rcases Outcome.map_eq_ok.mp hmember with ⟨⟨w, _⟩, hvalue, hset⟩
    cases hset
    rw [afterColon] at hvalue
    split at hvalue
    · cases hvalue
    · exact setMember_namesUnique (ih _ (Nat.lt_succ_self _) hvalue) hold
  · cases hscalar : scanScalar (skipBlanks cs) with
    | none =>
        rw [hscalar] at h
        cases h
    | some scan =>
        rw [hscalar, Option.getD_some] at h
        exact scanScalar_namesUnique (hscalar.trans (congrArg some h))

/-- No object in a document that was read has two members of one name. -/
theorem read?_namesUnique {cs : List Char} {v : Json} (h : read? cs = .ok v) :
    v.NamesUnique := by
  rw [read?, Reader.whole] at h
  split at h
  · cases h
  · next hread =>
    split at h
    · cases h
      exact document_namesUnique hread
    · cases h

end Json

end NestedColumns
