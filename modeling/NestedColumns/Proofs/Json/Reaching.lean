import NestedColumns.Proofs.Json.Extents
import NestedColumns.Proofs.Json.Reading

/-!
# How far items and members reach

The items of an array and the members of an object are read one after another, and each is
found before whatever stands behind it. The closing bracket shows where the last one ends, so
anything may follow it. How many steps the reader may still take does not matter as long as
there are enough of them.

## Theorems

* `Json.takes_scanItems`, `Json.takes_scanMembers`: Items and members.
* `Json.scanItems_fuel`, `Json.scanMembers_fuel`: The number of steps.
* `Json.Firm.afterColon`: A value after its colon.
-/

namespace NestedColumns

namespace Json

variable {α σ : Type} {follows : List Char → Prop} {cs rest mid : List Char}

/-! ### Items -/

theorem Starts.taken {text : List Char} (h : Starts (text ++ rest)) (hlength : 1 ≤ text.length)
    (more : List Char) : Starts (text ++ more) := by
  cases text with
  | nil => exact absurd hlength (Nat.not_succ_le_zero 0)
  | cons c text =>
      rcases h with ⟨c', tail, heq, hblank, hne⟩
      rw [List.cons_append, List.cons.injEq] at heq
      rw [← heq.1] at hblank hne
      exact ⟨c, text ++ more, rfl, hblank, hne⟩

theorem takes_blanks : Takes 0 Starts fun cs rest => skipBlanks cs = rest ∧ Starts rest := by
  rintro cs rest ⟨h, hstarts⟩
  rcases hstarts with ⟨c, tail, rfl, hblank, hne⟩
  rcases skipBlanks_eq_cons h with ⟨blanks, hblanks, -, rfl⟩
  refine ⟨blanks, Nat.zero_le _, rfl, ?_⟩
  rintro more ⟨c', tail', rfl, hblank', hne'⟩
  exact ⟨skipBlanks_append hblanks hblank' tail', c', tail', rfl, hblank', hne'⟩

theorem length_skipBlanks_le (cs : List Char) : (skipBlanks cs).length ≤ cs.length := by
  cases h : skipBlanks cs with
  | nil => exact Nat.zero_le _
  | cons c tail => exact (takes_skipBlanks c).length_le h

theorem nextItem_done {first : Bool} :
    nextItem first cs = .ok (.done rest) ↔ skipBlanks cs = ']' :: rest := by
  rw [nextItem]
  split
  · next heq => rw [heq]; simp only [reduceCtorEq]
  · next heq => rw [heq]; simp only [Except.ok.injEq, Next.done.injEq, List.cons.injEq, true_and]
  · next c tail hne heq =>
    rw [heq]
    have hnot : ¬ c :: tail = ']' :: rest := fun h => hne (List.cons.inj h).1
    simp only [hnot, iff_false]
    split
    · simp only [Except.ok.injEq, reduceCtorEq, not_false_eq_true]
    · split
      · split <;> simp only [Except.ok.injEq, reduceCtorEq, not_false_eq_true]
      · simp only [reduceCtorEq, not_false_eq_true]

theorem starts_of_skipBlanks {c : Char} (h : skipBlanks cs = c :: rest) (hne : c ≠ ']') :
    Starts (c :: rest) := by
  rcases skipBlanks_eq_cons h with ⟨-, -, hblank, -⟩
  exact ⟨c, rest, rfl, hblank, hne⟩

theorem nextItem_more {first : Bool} : nextItem first cs = .ok (.more mid) ↔
    first = true ∧ (skipBlanks cs = mid ∧ Starts mid) ∨
      first = false ∧
        ∃ tail, skipBlanks cs = ',' :: tail ∧ (skipBlanks tail = mid ∧ Starts mid) := by
  rw [nextItem]
  constructor
  · intro h
    split at h
    · cases h
    · cases h
    · next c tail hne heq =>
      cases first with
      | true =>
          cases h
          exact Or.inl ⟨rfl, heq, starts_of_skipBlanks heq hne⟩
      | false =>
          rw [if_neg Bool.false_ne_true] at h
          by_cases hcomma : c = ','
          · rw [if_pos hcomma] at h
            rw [hcomma] at heq
            split at h
            · cases h
            · cases h
            · next rest' hnil hclose =>
              cases h
              cases hmid : skipBlanks tail with
              | nil => exact absurd hmid hnil
              | cons d last =>
                  exact Or.inr ⟨rfl, tail, heq, hmid, starts_of_skipBlanks hmid fun hd =>
                    hclose last (by rw [hmid, hd])⟩
          · rw [if_neg hcomma] at h
            cases h
  · rintro (⟨rfl, heq, c, tail, rfl, hblank, hne⟩ |
      ⟨rfl, tail, heq, hmid, c, last, rfl, hblank, hne⟩)
    · rw [heq]
      split
      · next hnil => cases hnil
      · next hclose => exact absurd (List.cons.inj hclose).1 hne
      · next hcons =>
        rw [if_pos rfl, ← hcons]
    · rw [heq]
      change nextItem false (',' :: tail) = _
      rw [nextItem_comma, hmid]
      split
      · next hnil => cases hnil
      · next hclose => exact absurd (List.cons.inj hclose).1 hne
      · rfl

theorem starts_of_nextItem {first : Bool} (h : nextItem first cs = .ok (.more mid)) :
    Starts mid := by
  rcases nextItem_more.mp h with ⟨-, -, hstarts⟩ | ⟨-, tail, -, -, hstarts⟩
  · exact hstarts
  · exact hstarts

theorem takes_nextItem (first : Bool) :
    Takes 0 Starts fun cs mid => nextItem first cs = .ok (.more mid) := by
  refine Takes.congr (Takes.either (Takes.given fun _ => takes_blanks)
    (Takes.given fun _ => ?_)) fun _ _ => nextItem_more
  exact ((takes_skipBlanks ',').before takes_blanks).weaken (Nat.zero_le _) fun _ h => h

section Items

variable {item : List Char → Scan α} {fuel : Nat} {first : Bool} {read as : List α}

theorem scanItems_eq_ok : scanItems item (fuel + 1) first read cs = .ok (as, rest) ↔
    (as = read.reverse ∧ skipBlanks cs = ']' :: rest) ∨
      ∃ a mid, nextItem first cs = .ok (.more mid) ∧ ∃ mid', item mid = .ok (a, mid') ∧
        scanItems item fuel false (a :: read) mid' = .ok (as, rest) := by
  rw [scanItems]
  cases hnext : nextItem first cs with
  | error fault =>
      have hno : ¬ skipBlanks cs = ']' :: rest := fun h => by
        rw [nextItem_done.mpr h] at hnext
        cases hnext
      simp only [reduceCtorEq, hno, and_false, false_and, exists_false, or_self]
  | ok next =>
      cases next with
      | done rest' =>
          have hdone := nextItem_done.mp hnext
          simp only [Except.ok.injEq, Prod.mk.injEq, hdone, List.cons.injEq, true_and, reduceCtorEq,
            false_and, exists_false, or_false, eq_comm]
      | more mid =>
          have hno : ¬ skipBlanks cs = ']' :: rest := fun h => by
            rw [nextItem_done.mpr h] at hnext
            cases hnext
          simp only [hno, and_false, false_or, Except.ok.injEq, Next.more.injEq, exists_eq_left']
          cases hitem : item mid with
          | error fault => simp only [reduceCtorEq, false_and, exists_false]
          | ok found =>
              rcases found with ⟨a, mid'⟩
              simp only [Except.ok.injEq, Prod.mk.injEq]
              constructor
              · exact fun h => ⟨a, mid', ⟨rfl, rfl⟩, h⟩
              · rintro ⟨_, _, ⟨rfl, rfl⟩, h⟩
                exact h

theorem apart_of_scanItems (h : scanItems item fuel false read cs = .ok (as, rest)) : Apart cs := by
  cases fuel with
  | zero => cases h
  | succ fuel =>
      rcases scanItems_eq_ok.mp h with ⟨-, hclose⟩ | ⟨a, mid, hmore, -⟩
      · exact apart_of_skipBlanks hclose (apart_square [])
      · rcases nextItem_more.mp hmore with ⟨hfirst, -⟩ | ⟨-, tail, hcomma, -⟩
        · cases hfirst
        · exact apart_of_skipBlanks hcomma (apart_comma [])

theorem takes_scanItems (hitem : Firm Apart item) (fuel : Nat) (first : Bool) (read as : List α) :
    Takes 1 Anything fun cs rest => scanItems item fuel first read cs = .ok (as, rest) := by
  induction fuel generalizing first read with
  | zero => exact fun cs rest h => nomatch h
  | succ fuel ih =>
      refine Takes.congr (Takes.either (Takes.given fun _ => takes_skipBlanks ']')
        (Takes.some fun a => ?_)) fun _ _ => scanItems_eq_ok
      have hrest := (hitem a).chain (ih false (a :: read)) fun _ h hlength more _ =>
        (apart_of_scanItems h).taken hlength more
      refine ((takes_nextItem first).chain hrest fun hnext _ hlength more _ => ?_).weaken
        (by decide) fun _ h => h
      exact (starts_of_nextItem hnext).taken (by omega) more

-- Every item takes a character, so there are enough steps for all that there can be.
theorem scanItems_fuel (hitem : Firm Apart item) {fuel' : Nat}
    (h : scanItems item fuel first read cs = .ok (as, rest)) (hfuel : cs.length < fuel') :
    scanItems item fuel' first read cs = .ok (as, rest) := by
  induction fuel generalizing fuel' first read cs with
  | zero => cases h
  | succ fuel ih =>
      cases fuel' with
      | zero => exact absurd hfuel (Nat.not_lt_zero _)
      | succ fuel' =>
          refine scanItems_eq_ok.mpr ?_
          rcases scanItems_eq_ok.mp h with hclose | ⟨a, mid, hmore, mid', hfound, hrest⟩
          · exact Or.inl hclose
          · have hmid := (takes_nextItem first).length_le hmore
            have hmid' := (hitem a).length_le hfound
            exact Or.inr ⟨a, mid, hmore, mid', hfound, ih hrest (by omega)⟩

end Items

/-! ### Members -/

theorem nextName_done {first : Bool} :
    nextName first cs = .ok (.done rest) ↔ skipBlanks cs = '\x7d' :: rest := by
  rw [nextName]
  split
  · next heq => rw [heq]; simp only [reduceCtorEq]
  · next heq => rw [heq]; simp only [Except.ok.injEq, Next.done.injEq, List.cons.injEq, true_and]
  · next c tail hne heq =>
    rw [heq]
    have hnot : ¬ c :: tail = '\x7d' :: rest := fun h => hne (List.cons.inj h).1
    have hname : ∀ scanned : Scan String, scanned.map Next.more ≠ .ok (.done rest) := by
      intro scanned h
      rcases Outcome.map_eq_ok.mp h with ⟨found, -, hfound⟩
      cases hfound
    simp only [hnot, iff_false]
    split
    · split
      · exact hname _
      · simp only [reduceCtorEq, not_false_eq_true]
    · split
      · split
        · exact hname _
        · simp only [reduceCtorEq, not_false_eq_true]
      · simp only [reduceCtorEq, not_false_eq_true]

theorem nextName_comma (text : List Char) : nextName false (',' :: text) =
    match skipBlanks text with
    | '"' :: rest => (scanString rest).map .more
    | rest => .error (faultAt rest) :=
  rfl

theorem nextName_more {first : Bool} {name : String} :
    nextName first cs = .ok (.more (name, mid)) ↔
      first = true ∧ (∃ tail, skipBlanks cs = '"' :: tail ∧ scanString tail = .ok (name, mid)) ∨
        first = false ∧ ∃ tail, skipBlanks cs = ',' :: tail ∧
          ∃ tail', skipBlanks tail = '"' :: tail' ∧ scanString tail' = .ok (name, mid) := by
  have hname : ∀ scanned : Scan String,
      scanned.map Next.more = .ok (.more (name, mid)) ↔ scanned = .ok (name, mid) := by
    intro scanned
    rw [Outcome.map_eq_ok]
    constructor
    · rintro ⟨found, hok, hfound⟩
      cases hfound
      exact hok
    · exact fun hok => ⟨_, hok, rfl⟩
  rw [nextName]
  constructor
  · intro h
    split at h
    · cases h
    · cases h
    · next c tail hne heq =>
      cases first with
      | true =>
          rw [if_pos rfl] at h
          by_cases hquote : c = '"'
          · rw [if_pos hquote, hname] at h
            exact Or.inl ⟨rfl, tail, hquote ▸ heq, h⟩
          · rw [if_neg hquote] at h
            cases h
      | false =>
          rw [if_neg Bool.false_ne_true] at h
          by_cases hcomma : c = ','
          · rw [if_pos hcomma] at h
            split at h
            · next tail' htail =>
              rw [hname] at h
              exact Or.inr ⟨rfl, tail, hcomma ▸ heq, tail', htail, h⟩
            · cases h
          · rw [if_neg hcomma] at h
            cases h
  · rintro (⟨rfl, tail, heq, h⟩ | ⟨rfl, tail, heq, tail', heq', h⟩)
    · rw [heq]
      exact (hname _).mpr h
    · rw [heq]
      change nextName false (',' :: tail) = _
      rw [nextName_comma, heq']
      exact (hname _).mpr h

theorem takes_nextName (first : Bool) (name : String) :
    Takes 1 Anything fun cs mid => nextName first cs = .ok (.more (name, mid)) := by
  have hquoted := (takes_skipBlanks '"').before (firm_scanString name)
  refine Takes.congr (Takes.either (Takes.given fun _ => ?_) (Takes.given fun _ => ?_))
    fun _ _ => nextName_more
  · exact hquoted.weaken (by decide) fun _ h => h
  · exact ((takes_skipBlanks ',').before hquoted).weaken (by decide) fun _ h => h

section Members

variable {member : σ → String → List Char → Scan σ} {fuel : Nat} {first : Bool} {state last : σ}

theorem scanMembers_eq_ok : scanMembers member (fuel + 1) first state cs = .ok (last, rest) ↔
    (last = state ∧ skipBlanks cs = '\x7d' :: rest) ∨
      ∃ name state' mid, nextName first cs = .ok (.more (name, mid)) ∧
        ∃ mid', member state name mid = .ok (state', mid') ∧
          scanMembers member fuel false state' mid' = .ok (last, rest) := by
  rw [scanMembers]
  cases hnext : nextName first cs with
  | error fault =>
      have hno : ¬ skipBlanks cs = '\x7d' :: rest := fun h => by
        rw [nextName_done.mpr h] at hnext
        cases hnext
      simp only [reduceCtorEq, hno, and_false, false_and, exists_false, or_self]
  | ok next =>
      cases next with
      | done rest' =>
          have hdone := nextName_done.mp hnext
          simp only [Except.ok.injEq, Prod.mk.injEq, hdone, List.cons.injEq, true_and, reduceCtorEq,
            false_and, exists_false, or_false, eq_comm]
      | more part =>
          rcases part with ⟨name, mid⟩
          have hno : ¬ skipBlanks cs = '\x7d' :: rest := fun h => by
            rw [nextName_done.mpr h] at hnext
            cases hnext
          simp only [hno, and_false, false_or, Except.ok.injEq, Next.more.injEq, Prod.mk.injEq]
          cases hmember : member state name mid with
          | error fault =>
              simp only [reduceCtorEq, false_iff]
              rintro ⟨_, _, _, ⟨rfl, rfl⟩, _, hfound, -⟩
              rw [hmember] at hfound
              cases hfound
          | ok found =>
              rcases found with ⟨state', mid'⟩
              constructor
              · exact fun h => ⟨name, state', mid, ⟨rfl, rfl⟩, mid', hmember, h⟩
              · rintro ⟨_, _, _, ⟨rfl, rfl⟩, _, hfound, h⟩
                rw [hmember] at hfound
                cases hfound
                exact h

theorem apart_of_scanMembers (h : scanMembers member fuel false state cs = .ok (last, rest)) :
    Apart cs := by
  cases fuel with
  | zero => cases h
  | succ fuel =>
      rcases scanMembers_eq_ok.mp h with ⟨-, hclose⟩ | ⟨name, state', mid, hmore, -⟩
      · exact apart_of_skipBlanks hclose (apart_curly [])
      · rcases nextName_more.mp hmore with ⟨hfirst, -⟩ | ⟨-, tail, hcomma, -⟩
        · cases hfirst
        · exact apart_of_skipBlanks hcomma (apart_comma [])

theorem takes_scanMembers (hmember : ∀ state name, Firm Apart (member state name)) (fuel : Nat)
    (first : Bool) (state last : σ) :
    Takes 1 Anything fun cs rest => scanMembers member fuel first state cs = .ok (last, rest) := by
  induction fuel generalizing first state with
  | zero => exact fun cs rest h => nomatch h
  | succ fuel ih =>
      refine Takes.congr (Takes.either (Takes.given fun _ => takes_skipBlanks '\x7d')
        (Takes.some fun name => Takes.some fun state' => ?_)) fun _ _ => scanMembers_eq_ok
      have hrest := (hmember state name state').chain (ih false state') fun _ h hlength more _ =>
        (apart_of_scanMembers h).taken hlength more
      exact ((takes_nextName first name).before hrest).weaken (by decide) fun _ h => h

theorem scanMembers_fuel (hmember : ∀ state name, Firm Apart (member state name)) {fuel' : Nat}
    (h : scanMembers member fuel first state cs = .ok (last, rest)) (hfuel : cs.length < fuel') :
    scanMembers member fuel' first state cs = .ok (last, rest) := by
  induction fuel generalizing fuel' first state cs with
  | zero => cases h
  | succ fuel ih =>
      cases fuel' with
      | zero => exact absurd hfuel (Nat.not_lt_zero _)
      | succ fuel' =>
          refine scanMembers_eq_ok.mpr ?_
          rcases scanMembers_eq_ok.mp h with
            hclose | ⟨name, state', mid, hmore, mid', hfound, hrest⟩
          · exact Or.inl hclose
          · have hmid := (takes_nextName first name).length_le hmore
            have hmid' := (hmember state name state').length_le hfound
            exact Or.inr ⟨name, state', mid, hmore, mid', hfound, ih hrest (by omega)⟩

end Members

theorem skipColon_eq_ok : skipColon cs = .ok rest ↔ skipBlanks cs = ':' :: rest := by
  rw [skipColon]
  split
  · next heq => rw [heq, Except.ok.injEq, List.cons.injEq, and_iff_right rfl]
  · next hno =>
    simp only [reduceCtorEq, false_iff]
    exact hno rest

theorem takes_skipColon : Takes 1 Anything fun cs rest => skipColon cs = .ok rest :=
  (takes_skipBlanks ':').congr fun _ _ => skipColon_eq_ok

theorem afterColon_eq_ok {value : List Char → Scan α} {a : α} :
    afterColon value cs = .ok (a, rest) ↔
      ∃ mid, skipColon cs = .ok mid ∧ value mid = .ok (a, rest) := by
  rw [afterColon]
  cases skipColon cs with
  | error fault => simp only [reduceCtorEq, false_and, exists_false]
  | ok mid => simp only [Except.ok.injEq, exists_eq_left']

theorem Firm.afterColon {value : List Char → Scan α} (h : Firm follows value) :
    Firm follows (afterColon value) := fun a =>
  ((takes_skipColon.before (h a)).weaken (by decide) fun _ h => h).congr fun _ _ => afterColon_eq_ok

end Json

end NestedColumns
