import NestedColumns.Proofs.Json.Firm

/-!
# Values one after another

An array or an object shows where it ends. So a text that holds several of them, with blanks
between them or without, is read as each of them is read alone, and a text that was read can be
cut behind each of them.

## Main definitions

* `Json.Spells`: A text is a value.
* `Json.Sequence`: A text is values one after another.
* `Json.isBracketed`: Arrays and objects.

## Theorems

* `Json.document_eq_ok`: A value that was read.
* `Json.firm_document`, `Json.takes_bracketed`: How far it reaches.
* `Json.values_eq_ok`: Several of them.
-/

namespace NestedColumns

namespace Json

variable {room inner fuel : Nat} {cs rest text : List Char} {v : Json} {vs : List Json}

/-- A text is a value, perhaps with blanks around it, and opens no more than so many brackets at
    once. -/
def Spells (room : Nat) (text : List Char) (v : Json) : Prop :=
  ∃ rest, document room text = .ok (v, rest) ∧ skipBlanks rest = []

/-- A text is values one after another, with blanks between them or without, none of which opens
    more than so many brackets at once. -/
inductive Sequence (room : Nat) : List Char → List Json → Prop
  | nil {text : List Char} (blank : skipBlanks text = []) : Sequence room text []
  | cons {text rest : List Char} {v : Json} {vs : List Json} (first : Spells room text v)
      (others : Sequence room rest vs) : Sequence room (text ++ rest) (v :: vs)

/-- Arrays and objects. -/
def isBracketed : Json → Bool
  | .array _ | .object _ => true
  | _ => false

/-! ### One value -/

theorem scanScalar_eq_ok : scanScalar cs = some (.ok (v, rest)) ↔
    (∃ s, .string s = v ∧ ∃ mid, cs = '"' :: mid ∧ scanString mid = .ok (s, rest)) ∨
    (∃ n, .number n = v ∧ scanNumber cs = .ok (n, rest)) ∨
    ∃ c mid, cs = c :: mid ∧ scanLiteral c mid = some (.ok (v, rest)) := by
  constructor
  · intro h
    unfold scanScalar at h
    split at h
    · cases h
    · next mid =>
      rw [Option.some.injEq, Outcome.map_eq_ok] at h
      rcases h with ⟨⟨s, rest'⟩, hscan, heq⟩
      rw [Prod.mk.injEq] at heq
      exact Or.inl ⟨s, heq.1, mid, rfl, heq.2 ▸ hscan⟩
    · next c mid hquote =>
      split at h
      · rw [Option.some.injEq, Outcome.map_eq_ok] at h
        rcases h with ⟨⟨n, rest'⟩, hscan, heq⟩
        rw [Prod.mk.injEq] at heq
        exact Or.inr (Or.inl ⟨n, heq.1, heq.2 ▸ hscan⟩)
      · exact Or.inr (Or.inr ⟨c, mid, rfl, h⟩)
  · -- The first character tells the kinds of values apart.
    rintro (⟨s, rfl, mid, rfl, hscan⟩ | ⟨n, rfl, hscan⟩ | ⟨c, mid, rfl, hliteral⟩)
    · rw [scanScalar, hscan]
      rfl
    · rcases scanNumber_eq_ok.mp hscan with ⟨_, _, _, _, -, hspelled⟩
      rcases hspelled.head with ⟨c, tail, rfl, hc⟩
      rw [scanScalar, if_pos hc, hscan]
      · rfl
      · rintro rfl
        revert hc
        decide
    · have hc := scanLiteral_first hliteral
      rw [scanScalar, if_neg, hliteral]
      · rcases hc with rfl | rfl | rfl <;> decide
      · rintro rfl
        revert hc
        decide

theorem takes_scanScalar (v : Json) :
    Takes 1 Apart fun cs rest => scanScalar cs = some (.ok (v, rest)) := by
  refine Takes.congr (Takes.either (Takes.some fun s => Takes.given fun _ => ?_)
    (Takes.either (Takes.some fun n => Takes.given fun _ => firm_scanNumber n)
      (Takes.some fun c => ?_))) fun cs rest => scanScalar_eq_ok
  · exact ((takes_char '"').before (firm_scanString s)).weaken (by decide) fun _ _ => trivial
  · exact ((takes_char c).before (takes_scanLiteral c v)).weaken (by decide) fun _ _ => trivial

/-- A member of an object is read from before its colon. -/
def readMember (room : Nat) (members : List (String × Json)) (name : String)
    (cs : List Char) : Scan (List (String × Json)) :=
  (afterColon (document room) cs).map fun read => (setMember name read.1 members, read.2)

/-- An array or an object is read from its opening bracket on. -/
def ReadsBrackets (room : Nat) (v : Json) (cs rest : List Char) : Prop :=
  ∃ inner, room = inner + 1 ∧
    ((∃ items, .array items = v ∧ ∃ mid, skipBlanks cs = '[' :: mid ∧
      ∃ fuel, scanItems (document inner) fuel true [] mid = .ok (items, rest)) ∨
    ∃ members, .object members = v ∧ ∃ mid, skipBlanks cs = '\x7b' :: mid ∧
      ∃ fuel, scanMembers (readMember inner) fuel true [] mid = .ok (members, rest))

theorem firm_readMember (h : Firm Apart (document room)) (members : List (String × Json))
    (name : String) : Firm Apart (readMember room members name) :=
  Firm.map (Firm.afterColon h) fun value => setMember name value members

theorem document_array {mid : List Char} (hcs : skipBlanks cs = '[' :: mid) :
    document (inner + 1) cs = (scanItems (document inner) (mid.length + 1) true [] mid).map
      fun read => (.array read.1, read.2) := by
  unfold document
  rw [hcs]
  rfl

theorem document_object {mid : List Char} (hcs : skipBlanks cs = '\x7b' :: mid) :
    document (inner + 1) cs = (scanMembers (readMember inner) (mid.length + 1) true [] mid).map
      fun read => (.object read.1, read.2) := by
  unfold document
  rw [hcs]
  rfl

theorem document_eq_ok (hinner : ∀ inner, room = inner + 1 → Firm Apart (document inner)) :
    document room cs = .ok (v, rest) ↔
      ReadsBrackets room v cs rest ∨ scanScalar (skipBlanks cs) = some (.ok (v, rest)) := by
  constructor
  · intro h
    unfold document at h
    split at h
    · cases h
    · cases h
    · next mid inner hcs =>
      rcases Outcome.map_eq_ok.mp h with ⟨⟨items, rest'⟩, hscan, heq⟩
      rw [Prod.mk.injEq] at heq
      exact Or.inl ⟨inner, rfl, Or.inl ⟨items, heq.1, mid, hcs, _, heq.2 ▸ hscan⟩⟩
    · cases h
    · next mid inner hcs =>
      rcases Outcome.map_eq_ok.mp h with ⟨⟨members, rest'⟩, hscan, heq⟩
      rw [Prod.mk.injEq] at heq
      exact Or.inl ⟨inner, rfl, Or.inr ⟨members, heq.1, mid, hcs, _, heq.2 ▸ hscan⟩⟩
    · cases hscan : scanScalar (skipBlanks cs) with
      | none =>
          rw [hscan] at h
          cases h
      | some scanned =>
          rw [hscan] at h
          exact Or.inr (congrArg some h)
  · rintro (⟨inner, rfl, ⟨items, rfl, mid, hcs, fuel, hscan⟩ |
      ⟨members, rfl, mid, hcs, fuel, hscan⟩⟩ | hscan)
    · rw [document_array hcs, scanItems_fuel (hinner inner rfl) hscan (Nat.lt_succ_self _)]
      rfl
    · rw [document_object hcs,
        scanMembers_fuel (firm_readMember (hinner inner rfl)) hscan (Nat.lt_succ_self _)]
      rfl
    · unfold document
      split
      · next hcs =>
        rw [hcs] at hscan
        cases hscan
      · next hcs =>
        rw [hcs] at hscan
        cases hscan
      · next hcs =>
        rw [hcs] at hscan
        cases hscan
      · next hcs =>
        rw [hcs] at hscan
        cases hscan
      · next hcs =>
        rw [hcs] at hscan
        cases hscan
      · rw [hscan]
        rfl

theorem takes_readsBrackets (hinner : ∀ inner, room = inner + 1 → Firm Apart (document inner))
    (v : Json) : Takes 1 Anything (ReadsBrackets room v) := by
  refine Takes.some fun inner => Takes.given fun hroom => Takes.either
    (Takes.some fun items => Takes.given fun _ => ?_)
    (Takes.some fun members => Takes.given fun _ => ?_)
  · exact ((takes_skipBlanks '[').before (Takes.some fun fuel =>
      takes_scanItems (hinner inner hroom) fuel true [] items)).weaken (by decide) fun _ h => h
  · exact ((takes_skipBlanks '\x7b').before (Takes.some fun fuel =>
      takes_scanMembers (firm_readMember (hinner inner hroom)) fuel true [] members)).weaken
      (by decide) fun _ h => h

theorem firm_of_inner (hinner : ∀ inner, room = inner + 1 → Firm Apart (document inner)) :
    Firm Apart (document room) := fun v =>
  (((takes_readsBrackets hinner v).weaken (Nat.le_refl 1) fun _ _ => trivial).either
    (takes_scanScalar v).afterBlanks).congr fun _ _ => document_eq_ok hinner

-- The induction is on the brackets that may be opened; the values inside of one may open one less.
theorem firm_document : Reader.Firm Apart document := by
  intro room
  induction room with
  | zero => exact firm_of_inner fun _ h => by cases h
  | succ room ih => exact firm_of_inner fun _ h => Nat.succ.inj h ▸ ih

/-! ### Arrays and objects -/

theorem bracketed_eq_ok (hv : v.isBracketed = true) :
    document room cs = .ok (v, rest) ↔ ReadsBrackets room v cs rest := by
  rw [document_eq_ok fun inner _ => firm_document inner, or_iff_left]
  intro hscan
  rcases scanScalar_eq_ok.mp hscan with ⟨s, rfl, -⟩ | ⟨n, rfl, -⟩ | ⟨c, mid, -, hliteral⟩
  · cases hv
  · cases hv
  · unfold scanLiteral at hliteral
    split at hliteral
    · rcases Outcome.map_eq_ok.mp (Option.some.inj hliteral) with ⟨_, -, heq⟩
      cases heq
      cases hv
    · rcases Outcome.map_eq_ok.mp (Option.some.inj hliteral) with ⟨_, -, heq⟩
      cases heq
      cases hv
    · rcases Outcome.map_eq_ok.mp (Option.some.inj hliteral) with ⟨_, -, heq⟩
      cases heq
      cases hv
    · cases hliteral

/-- An array or an object is found before any other text. -/
theorem takes_bracketed (hv : v.isBracketed = true) :
    Takes 1 Anything fun cs rest => document room cs = .ok (v, rest) :=
  (takes_readsBrackets (fun inner _ => firm_document inner) v).congr fun _ _ => bracketed_eq_ok hv

theorem document_skipBlanks (room : Nat) (cs : List Char) :
    document room (skipBlanks cs) = document room cs := by
  unfold document
  rw [Reader.skipBlanks_skipBlanks]

theorem next_bracketed_eq_ok (hv : v.isBracketed = true) :
    Reader.next document cs = .ok (some (v, rest)) ↔ document maxNesting cs = .ok (v, rest) := by
  refine Reader.next_eq_ok (document_skipBlanks maxNesting) fun hread => ?_
  rcases (bracketed_eq_ok hv).mp hread with ⟨_, -, ⟨_, -, mid, hcs, -⟩ | ⟨_, -, mid, hcs, -⟩⟩
  · exact ⟨_, mid, hcs, rfl⟩
  · exact ⟨_, mid, hcs, rfl⟩

theorem skipBlanks_of_blanks {blanks : List Char} (h : skipBlanks blanks = []) (cs : List Char) :
    skipBlanks (blanks ++ cs) = skipBlanks cs := by
  induction blanks with
  | nil => rfl
  | cons b blanks ih =>
      rw [skipBlanks] at h
      by_cases hb : isBlank b = true
      · rw [if_pos hb] at h
        rw [List.cons_append, skipBlanks, if_pos hb, ih h]
      · rw [if_neg hb] at h
        cases h

/-! ### Several of them -/

theorem next_eq_none : Reader.next document cs = .ok none ↔ skipBlanks cs = [] := by
  unfold Reader.next
  constructor
  · intro h
    split at h
    · assumption
    · split at h
      · cases h
      · split at h
        · cases h
        · cases h
  · intro h
    rw [h]

-- What is left behind a value begins with the blanks that belong to its text.
theorem valuesFrom_of_sequence (h : Sequence maxNesting text vs)
    (hv : ∀ v ∈ vs, v.isBracketed = true) (blanks : List Char) (hblanks : skipBlanks blanks = [])
    (hfuel : (blanks ++ text).length < fuel) :
    Reader.valuesFrom document fuel (blanks ++ text) = (vs, none) := by
  induction h generalizing blanks fuel with
  | nil blank =>
      cases fuel with
      | zero => cases hfuel
      | succ fuel =>
          rw [Reader.valuesFrom, next_eq_none.mpr ((skipBlanks_of_blanks hblanks _).trans blank)]
  | @cons text rest v vs first others ih =>
      cases fuel with
      | zero => cases hfuel
      | succ fuel =>
          rcases first with ⟨left, hread, hleft⟩
          have hbracketed := hv v List.mem_cons_self
          rcases takes_bracketed hbracketed _ _ hread with ⟨taken, hlength, rfl, hmore⟩
          have hnext : Reader.next document (blanks ++ (taken ++ left ++ rest)) =
              .ok (some (v, left ++ rest)) := by
            rw [next_bracketed_eq_ok hbracketed, ← document_skipBlanks,
              skipBlanks_of_blanks hblanks, document_skipBlanks, List.append_assoc]
            exact hmore _ trivial
          have hshort : (left ++ rest).length < fuel := by
            simp only [List.length_append] at hfuel ⊢
            omega
          rw [Reader.valuesFrom, hnext]
          simp only [ih (fun v hin => hv v (List.mem_cons_of_mem _ hin)) left hleft hshort]

theorem sequence_of_valuesFrom (h : Reader.valuesFrom document fuel cs = (vs, none))
    (hv : ∀ v ∈ vs, v.isBracketed = true) (hfuel : cs.length < fuel) :
    Sequence maxNesting cs vs := by
  induction fuel generalizing cs vs with
  | zero => cases hfuel
  | succ fuel ih =>
      rw [Reader.valuesFrom] at h
      split at h
      · cases h
      · next hnext =>
        cases h
        exact .nil (next_eq_none.mp hnext)
      · next v rest hnext =>
        rcases hothers : Reader.valuesFrom document fuel rest with ⟨others, fault⟩
        rw [hothers, Prod.mk.injEq] at h
        rcases h with ⟨rfl, rfl⟩
        have hbracketed := hv v List.mem_cons_self
        rw [next_bracketed_eq_ok hbracketed] at hnext
        rcases takes_bracketed hbracketed _ _ hnext with ⟨taken, hlength, rfl, hmore⟩
        have halone : document maxNesting taken = .ok (v, []) := by
          have hread := hmore [] trivial
          rwa [List.append_nil] at hread
        rw [List.length_append] at hfuel
        exact .cons ⟨[], halone, rfl⟩
          (ih hothers (fun v hin => hv v (List.mem_cons_of_mem _ hin)) (by omega))

/-- Arrays and objects are read from a text that holds several exactly if they stand in it one after
    another. -/
theorem values_eq_ok (hv : ∀ v ∈ vs, v.isBracketed = true) :
    Reader.values document text = (vs, none) ↔ Sequence maxNesting text vs :=
  ⟨fun h => sequence_of_valuesFrom h hv (Nat.lt_succ_self _), fun h =>
    valuesFrom_of_sequence h hv [] rfl (Nat.lt_succ_self _)⟩

theorem sequence_singleton (hv : v.isBracketed = true) :
    Sequence room text [v] ↔ Spells room text v := by
  constructor
  · intro h
    cases h with
    | cons first others =>
        cases others with
        | nil blank =>
            rcases first with ⟨left, hread, hleft⟩
            rcases takes_bracketed hv _ _ hread with ⟨taken, -, rfl, hmore⟩
            refine ⟨left ++ _, ?_, (skipBlanks_of_blanks hleft _).trans blank⟩
            rw [List.append_assoc]
            exact hmore _ trivial
  · intro h
    have hblank : Sequence room [] [] := .nil rfl
    have hone := Sequence.cons h hblank
    rwa [List.append_nil] at hone

end Json

end NestedColumns
