import NestedColumns.Proofs.Json.Figures
import NestedColumns.Proofs.Json.Reaching

/-!
# How far values reach that nobody reads

A value that is passed over is taken bracket by bracket. Whatever brackets are open, what is
taken next is found before any other text, so all of the value is; only if it is a number, what
follows must not be a part of it.

## Theorems

* `Json.passFrom_value`, `Json.passFrom_opened`, `Json.passFrom_after_cons`: One step.
* `Json.takes_passFrom`: All steps that are left.
* `Json.passFrom_fuel`: The number of steps.
* `Json.takes_passValue`: A value that is passed over.
-/

namespace NestedColumns

namespace Json

variable {cs rest mid : List Char}

theorem passName_eq_ok : passName cs = .ok rest ↔
    ∃ mid, skipBlanks cs = '"' :: mid ∧ ∃ mid', passString mid = .ok mid' ∧
      skipColon mid' = .ok rest := by
  rw [passName]
  split
  · next tail heq =>
    rw [heq, Outcome.bind_eq_ok]
    simp only [List.cons.injEq, true_and, exists_eq_left']
  · next hno =>
    simp only [reduceCtorEq, false_iff]
    rintro ⟨mid, heq, -⟩
    exact hno mid heq

theorem takes_passInto (bracket : Bracket) :
    Takes 0 Anything fun cs rest => passInto bracket cs = .ok rest := by
  cases bracket with
  | square =>
      intro cs rest h
      rw [passInto, Except.ok.injEq] at h
      exact ⟨[], Nat.le_refl 0, h, fun more _ => rfl⟩
  | curly =>
      have hname := ((takes_skipBlanks '"').before (takes_passString.before takes_skipColon)).congr
        fun _ _ => passName_eq_ok
      exact hname.weaken (Nat.zero_le _) fun _ h => h

-- A number starts with a digit or a sign.
theorem head_of_passNumber (h : passNumber cs = .ok rest) :
    ∃ c tail, cs = c :: tail ∧ (c = '-' ∨ isDigit c = true) := by
  rcases passNumber_eq_ok.mp h with ⟨_, _, _, _, hspelled⟩
  exact hspelled.head

/-- The character that closes a bracket. -/
def Bracket.closing : Bracket → Char
  | .square => ']'
  | .curly => '\x7d'

theorem apart_closing (bracket : Bracket) : Apart [bracket.closing] := by
  cases bracket
  · exact apart_square []
  · exact apart_curly []

section Passing

variable {fuel : Nat} {brackets : List Bracket} {bracket : Bracket}

attribute [local simp] passFrom

-- What opens no bracket and no string is a number or a literal.
theorem passFrom_other {c : Char} {tail : List Char} (hsquare : c ≠ '[') (hcurly : c ≠ '\x7b')
    (hquote : c ≠ '"') (heq : skipBlanks cs = c :: tail) :
    passFrom (fuel + 1) .value brackets cs =
      if c = '-' ∨ isDigit c = true then
        passNumber (c :: tail) >>= fun rest => passFrom fuel .after brackets rest
      else
        match scanLiteral c tail with
        | some (.ok (_, rest)) => passFrom fuel .after brackets rest
        | some (.error fault) => .error fault
        | none => .error .malformed := by
  rw [passFrom, heq]
  split
  · next hnil => cases hnil
  · next hcons => exact absurd (List.cons.inj hcons).1 hsquare
  · next hcons => exact absurd (List.cons.inj hcons).1 hcurly
  · next hcons => exact absurd (List.cons.inj hcons).1 hquote
  · next hcons =>
    cases hcons
    rfl

theorem passFrom_value : passFrom (fuel + 1) .value brackets cs = .ok rest ↔
    (∃ mid, skipBlanks cs = '[' :: mid ∧
      passFrom fuel .opened (.square :: brackets) mid = .ok rest) ∨
    (∃ mid, skipBlanks cs = '\x7b' :: mid ∧
      passFrom fuel .opened (.curly :: brackets) mid = .ok rest) ∨
    (∃ mid, skipBlanks cs = '"' :: mid ∧ ∃ mid', passString mid = .ok mid' ∧
      passFrom fuel .after brackets mid' = .ok rest) ∨
    (∃ mid, passNumber (skipBlanks cs) = .ok mid ∧
      passFrom fuel .after brackets mid = .ok rest) ∨
    ∃ c v mid, skipBlanks cs = c :: mid ∧ ∃ mid', scanLiteral c mid = some (.ok (v, mid')) ∧
      passFrom fuel .after brackets mid' = .ok rest := by
  constructor
  · intro h
    rw [passFrom] at h
    split at h
    · cases h
    · next mid heq => exact Or.inl ⟨mid, heq, h⟩
    · next mid heq => exact Or.inr (Or.inl ⟨mid, heq, h⟩)
    · next mid heq => exact Or.inr (Or.inr (Or.inl ⟨mid, heq, Outcome.bind_eq_ok.mp h⟩))
    · next c mid hsquare hcurly hquote heq =>
      split at h
      · rw [heq]
        exact Or.inr (Or.inr (Or.inr (Or.inl (Outcome.bind_eq_ok.mp h))))
      · split at h
        · next v mid' hliteral =>
          exact Or.inr (Or.inr (Or.inr (Or.inr ⟨c, v, mid, heq, mid', hliteral, h⟩)))
        · cases h
        · cases h
  · -- The first character tells the kinds of values apart.
    rintro (⟨mid, heq, h⟩ | ⟨mid, heq, h⟩ | ⟨mid, heq, h⟩ | ⟨mid, hnumber, h⟩ |
      ⟨c, v, mid, heq, mid', hliteral, h⟩)
    · rw [passFrom, heq]
      exact h
    · rw [passFrom, heq]
      exact h
    · rw [passFrom, heq]
      exact Outcome.bind_eq_ok.mpr h
    · rcases head_of_passNumber hnumber with ⟨c, tail, heq, hc⟩
      rw [passFrom_other ?_ ?_ ?_ heq, if_pos hc, ← heq]
      · exact Outcome.bind_eq_ok.mpr ⟨mid, hnumber, h⟩
      all_goals
        rintro rfl
        revert hc
        decide
    · have hc := scanLiteral_first hliteral
      have hnot : ¬ (c = '-' ∨ isDigit c = true) := by
        rcases hc with rfl | rfl | rfl <;> decide
      rw [passFrom_other ?_ ?_ ?_ heq, if_neg hnot, hliteral]
      · exact h
      all_goals
        rintro rfl
        revert hc
        decide

theorem passFrom_after_nil : passFrom (fuel + 1) .after [] cs = .ok rest ↔ cs = rest := by
  simp

theorem passFrom_after_cons : passFrom (fuel + 1) .after (bracket :: brackets) cs = .ok rest ↔
    (∃ mid, skipBlanks cs = bracket.closing :: mid ∧ passFrom fuel .after brackets mid = .ok rest) ∨
    ∃ mid, skipBlanks cs = ',' :: mid ∧ ∃ mid', passInto bracket mid = .ok mid' ∧
      passFrom fuel .value (bracket :: brackets) mid' = .ok rest := by
  constructor
  · intro h
    unfold passFrom at h
    split at h
    · cases h
    · next mid heq => exact Or.inl ⟨mid, heq, h⟩
    · next mid heq => exact Or.inl ⟨mid, heq, h⟩
    · next mid heq => exact Or.inr ⟨mid, heq, Outcome.bind_eq_ok.mp h⟩
    · cases h
  · rintro (⟨mid, heq, h⟩ | ⟨mid, heq, h⟩)
    · unfold passFrom
      rw [heq]
      cases bracket <;> exact h
    · unfold passFrom
      rw [heq]
      cases bracket <;> exact Outcome.bind_eq_ok.mpr h

theorem starts_of_passFrom (h : passFrom fuel .value brackets cs = .ok rest) :
    Starts (skipBlanks cs) := by
  cases fuel with
  | zero => cases h
  | succ fuel =>
      rcases passFrom_value.mp h with ⟨mid, heq, -⟩ | ⟨mid, heq, -⟩ | ⟨mid, heq, -⟩ |
        ⟨mid, hnumber, -⟩ | ⟨c, v, mid, heq, mid', hliteral, -⟩
      · rw [heq]
        exact starts_of_skipBlanks heq (by decide)
      · rw [heq]
        exact starts_of_skipBlanks heq (by decide)
      · rw [heq]
        exact starts_of_skipBlanks heq (by decide)
      · rcases head_of_passNumber hnumber with ⟨c, tail, heq, hc⟩
        rw [heq]
        refine starts_of_skipBlanks heq ?_
        rintro rfl
        revert hc
        decide
      · rw [heq]
        refine starts_of_skipBlanks heq ?_
        rintro rfl
        cases hliteral

-- No value and no name starts with a closing bracket.
theorem passFrom_opened : passFrom (fuel + 1) .opened (bracket :: brackets) cs = .ok rest ↔
    (∃ mid, skipBlanks cs = bracket.closing :: mid ∧ passFrom fuel .after brackets mid = .ok rest) ∨
    ∃ mid, passInto bracket (skipBlanks cs) = .ok mid ∧
      passFrom fuel .value (bracket :: brackets) mid = .ok rest := by
  constructor
  · intro h
    unfold passFrom at h
    split at h
    · cases h
    · next mid heq => exact Or.inl ⟨mid, heq, h⟩
    · next mid heq => exact Or.inl ⟨mid, heq, h⟩
    · exact Or.inr (Outcome.bind_eq_ok.mp h)
  · rintro (⟨mid, heq, h⟩ | ⟨mid, hinto, h⟩)
    · unfold passFrom
      rw [heq]
      cases bracket <;> exact h
    · have hstarts := starts_of_passFrom h
      have hne : skipBlanks cs ≠ [] := by
        intro heq
        rw [heq] at hinto
        cases bracket with
        | square =>
            cases hinto
            rcases hstarts with ⟨c, tail, hnil, -⟩
            cases hnil
        | curly => cases hinto
      unfold passFrom
      split
      · next heq => exact absurd heq hne
      · next heq =>
        rw [heq] at hinto
        cases hinto
        rcases hstarts with ⟨c, tail, hcons, -, hne⟩
        exact absurd (List.cons.inj hcons).1.symm hne
      · next heq =>
        rw [heq] at hinto
        cases hinto
      · exact Outcome.bind_eq_ok.mpr ⟨mid, hinto, h⟩

-- What stands behind a value that has ended is no part of a number.
theorem apart_of_passFrom {text : List Char}
    (h : passFrom fuel .after brackets (text ++ rest) = .ok rest) {more : List Char}
    (hmore : Apart more) : Apart (text ++ more) := by
  cases fuel with
  | zero => cases h
  | succ fuel =>
      by_cases hlength : 1 ≤ text.length
      · have hboth : Apart (text ++ rest) := by
          cases brackets with
          | nil =>
              rw [List.append_left_eq_self.mp (passFrom_after_nil.mp h)] at hlength
              exact absurd hlength (Nat.not_succ_le_zero 0)
          | cons bracket brackets =>
              rcases passFrom_after_cons.mp h with ⟨mid, heq, -⟩ | ⟨mid, heq, -⟩
              · exact apart_of_skipBlanks heq (apart_closing bracket)
              · exact apart_of_skipBlanks heq (apart_comma [])
        exact hboth.taken hlength more
      · rw [List.length_eq_zero_iff.mp (by omega : text.length = 0)]
        exact hmore

theorem takes_passFrom (fuel : Nat) :
    (∀ brackets, Takes 1 Apart fun cs rest => passFrom fuel .value brackets cs = .ok rest) ∧
    (∀ brackets, Takes 1 Apart fun cs rest => passFrom fuel .opened brackets cs = .ok rest) ∧
    ∀ brackets, Takes 0 Apart fun cs rest => passFrom fuel .after brackets cs = .ok rest := by
  induction fuel with
  | zero =>
      exact ⟨fun _ _ _ h => (nomatch h), fun _ _ _ h => (nomatch h), fun _ _ _ h => (nomatch h)⟩
  | succ fuel ih =>
      rcases ih with ⟨hvalue, hopened, hafter⟩
      have hclosed : ∀ bracket brackets, Takes 1 Apart fun cs rest =>
          ∃ mid, skipBlanks cs = Bracket.closing bracket :: mid ∧
            passFrom fuel .after brackets mid = .ok rest := fun bracket brackets =>
        (takes_skipBlanks bracket.closing).before (hafter brackets)
      have hinto : ∀ bracket brackets, Takes 1 Apart fun cs rest =>
          ∃ mid, passInto bracket cs = .ok mid ∧
            passFrom fuel .value (bracket :: brackets) mid = .ok rest := fun bracket brackets =>
        ((takes_passInto bracket).before (hvalue (bracket :: brackets))).weaken (by decide)
          fun _ h => h
      refine ⟨fun brackets => ?_, fun brackets => ?_, fun brackets => ?_⟩
      · have hnumber := (takes_passNumber.chain (hafter brackets)
          fun _ h _ more hmore => apart_of_passFrom h hmore).afterBlanks
        refine Takes.congr (Takes.either ?_ (Takes.either ?_ (Takes.either ?_
          (Takes.either hnumber ?_)))) fun _ _ => passFrom_value
        · exact ((takes_skipBlanks '[').before (hopened _)).weaken (by decide) fun _ h => h
        · exact ((takes_skipBlanks '\x7b').before (hopened _)).weaken (by decide) fun _ h => h
        · exact ((takes_skipBlanks '"').before (takes_passString.before (hafter _))).weaken
            (by decide) fun _ h => h
        · refine Takes.some fun c => Takes.some fun v => ?_
          exact ((takes_skipBlanks c).before ((takes_scanLiteral c v).before (hafter _))).weaken
            (by decide) fun _ h => h
      · cases brackets with
        | nil => exact fun cs rest h => nomatch h
        | cons bracket brackets =>
            exact ((hclosed bracket brackets).either (hinto bracket brackets).afterBlanks).congr
              fun _ _ => passFrom_opened
      · cases brackets with
        | nil =>
            exact fun cs rest h => ⟨[], Nat.le_refl 0, passFrom_after_nil.mp h, fun _ _ =>
              passFrom_after_nil.mpr rfl⟩
        | cons bracket brackets =>
            have hcomma := (takes_skipBlanks ',').before (hinto bracket brackets)
            have hclose := (hclosed bracket brackets).weaken (Nat.zero_le 1) fun _ h => h
            exact (hclose.either (hcomma.weaken (Nat.zero_le _) fun _ h => h)).congr
              fun _ _ => passFrom_after_cons

/-- How many steps are enough to pass over what is left of a value. -/
def Passing.steps (length : Nat) : Passing → Nat
  | .opened => 2 * length + 2
  | _ => 2 * length + 1

theorem passFrom_fuel {fuel' : Nat} {passing : Passing}
    (h : passFrom fuel passing brackets cs = .ok rest) (hfuel : passing.steps cs.length ≤ fuel') :
    passFrom fuel' passing brackets cs = .ok rest := by
  induction fuel generalizing fuel' passing brackets cs with
  | zero => cases h
  | succ fuel ih =>
      cases fuel' with
      | zero => cases passing <;> cases hfuel
      | succ fuel' =>
          have hblanks : ∀ {c : Char} {cs mid : List Char}, skipBlanks cs = c :: mid →
              mid.length + 1 ≤ cs.length := (takes_skipBlanks _).length_le
          cases passing with
          | value =>
              simp only [Passing.steps] at hfuel
              refine passFrom_value.mpr ?_
              rcases passFrom_value.mp h with ⟨mid, heq, h⟩ | ⟨mid, heq, h⟩ |
                ⟨mid, heq, mid', hstring, h⟩ | ⟨mid, hnumber, h⟩ |
                ⟨c, v, mid, heq, mid', hliteral, h⟩
              · have hmid := hblanks heq
                exact Or.inl ⟨mid, heq, ih h (by simp only [Passing.steps]; omega)⟩
              · have hmid := hblanks heq
                exact Or.inr (Or.inl ⟨mid, heq, ih h (by simp only [Passing.steps]; omega)⟩)
              · have hmid := hblanks heq
                have hmid' := takes_passString.length_le hstring
                exact Or.inr (Or.inr (Or.inl ⟨mid, heq, mid', hstring,
                  ih h (by simp only [Passing.steps]; omega)⟩))
              · have hmid := takes_passNumber.afterBlanks.length_le hnumber
                exact Or.inr (Or.inr (Or.inr (Or.inl ⟨mid, hnumber,
                  ih h (by simp only [Passing.steps]; omega)⟩)))
              · have hmid := hblanks heq
                have hmid' := (takes_scanLiteral c v).length_le hliteral
                exact Or.inr (Or.inr (Or.inr (Or.inr ⟨c, v, mid, heq, mid', hliteral,
                  ih h (by simp only [Passing.steps]; omega)⟩)))
          | opened =>
              simp only [Passing.steps] at hfuel
              cases brackets with
              | nil => cases h
              | cons bracket brackets =>
                  refine passFrom_opened.mpr ?_
                  rcases passFrom_opened.mp h with ⟨mid, heq, h⟩ | ⟨mid, hinto, h⟩
                  · have hmid := hblanks heq
                    exact Or.inl ⟨mid, heq, ih h (by simp only [Passing.steps]; omega)⟩
                  · have hmid := (takes_passInto bracket).length_le hinto
                    have hle := length_skipBlanks_le cs
                    exact Or.inr ⟨mid, hinto, ih h (by simp only [Passing.steps]; omega)⟩
          | after =>
              simp only [Passing.steps] at hfuel
              cases brackets with
              | nil => exact passFrom_after_nil.mpr (passFrom_after_nil.mp h)
              | cons bracket brackets =>
                  refine passFrom_after_cons.mpr ?_
                  rcases passFrom_after_cons.mp h with ⟨mid, heq, h⟩ | ⟨mid, heq, mid', hinto, h⟩
                  · have hmid := hblanks heq
                    exact Or.inl ⟨mid, heq, ih h (by simp only [Passing.steps]; omega)⟩
                  · have hmid := hblanks heq
                    have hmid' := (takes_passInto bracket).length_le hinto
                    exact Or.inr ⟨mid, heq, mid', hinto, ih h (by simp only [Passing.steps]; omega)⟩

end Passing

theorem passValue_eq_ok :
    passValue cs = .ok rest ↔ ∃ fuel, passFrom fuel .value [] cs = .ok rest := by
  rw [passValue]
  constructor
  · exact fun h => ⟨_, h⟩
  · rintro ⟨fuel, h⟩
    exact passFrom_fuel h (Nat.le_succ _)

theorem takes_passValue : Takes 1 Apart fun cs rest => passValue cs = .ok rest :=
  (Takes.some fun fuel => (takes_passFrom fuel).1 []).congr fun _ _ => passValue_eq_ok

end Json

end NestedColumns
