import NestedColumns.Proofs.Json.Extents
import Mathlib.Data.List.TakeWhile

/-!
# How far numbers reach

A number is a sign, digits, a fraction and an exponent, of which only the digits have to be
there. Each part ends before a character that is none of its own, so the parts are found one
after another before any text that could not be read as a part of the number.

## Main definitions

* `Json.Off`: A text that starts with none of some characters.
* `Json.Spelled`: The parts of a number at the start of a text.

## Theorems

* `Json.takes_spelled`: The parts of a number.
* `Json.firm_scanNumber`, `Json.takes_passNumber`: Numbers, and those that nobody reads.
-/

namespace NestedColumns

namespace Json

variable {follows : List Char → Prop} {cs rest : List Char} {n : Nat}

/-- The text does not start with such a character. -/
def Off (p : Char → Prop) (cs : List Char) : Prop :=
  ∀ c ∈ cs.head?, ¬ p c

theorem Off.append {p : Char → Prop} {text more : List Char} (h : Off p text) (hmore : Off p more) :
    Off p (text ++ more) := by
  cases text with
  | nil => exact hmore
  | cons c text => exact h

theorem Off.left {p : Char → Prop} {text : List Char} (h : Off p (text ++ rest)) : Off p text := by
  cases text with
  | nil => exact fun c hc => absurd hc (Option.not_mem_none c)
  | cons c text => exact h

theorem takes_char (c : Char) : Takes 1 Anything fun cs rest => cs = c :: rest :=
  fun _ _ h => ⟨[c], Nat.le_refl 1, h, fun _ _ => rfl⟩

theorem takes_nothing (p : List Char → Prop) : Takes 0 p fun cs rest => cs = rest ∧ p rest :=
  fun _ _ h => ⟨[], Nat.le_refl 0, h.1, fun _ hmore => ⟨rfl, hmore⟩⟩

theorem takes_scanDigits (digits : List Char) :
    Takes 1 (Off (isDigit · = true)) fun cs rest => scanDigits cs = .ok (digits, rest) := by
  intro cs rest h
  rw [scanDigits] at h
  split at h
  · cases h
  · next hne =>
    rw [Except.ok.injEq, Prod.mk.injEq] at h
    rcases h with ⟨rfl, rfl⟩
    rw [List.isEmpty_iff] at hne
    refine ⟨cs.takeWhile isDigit, List.length_pos_iff.mpr hne,
      List.takeWhile_append_dropWhile.symm, fun more hmore => ?_⟩
    exact scanDigits_append (fun c hc => List.mem_takeWhile_imp hc) hne fun c hc =>
      Bool.eq_false_iff.mpr (hmore c hc)

/-- Digits are what is read, so the text starts with one. -/
theorem exists_digit {digits : List Char} (h : scanDigits cs = .ok (digits, rest)) :
    ∃ c tail, cs = c :: tail ∧ isDigit c = true := by
  cases cs with
  | nil => cases h
  | cons c cs =>
      refine ⟨c, cs, rfl, ?_⟩
      by_contra hc
      rw [scanDigits, List.takeWhile_cons_of_neg hc] at h
      cases h

theorem scanWhole_eq_ok {digits : List Char} : scanWhole cs = .ok (digits, rest) ↔
    ¬ (digits.head? = some '0' ∧ digits.length ≠ 1) ∧ scanDigits cs = .ok (digits, rest) := by
  rw [scanWhole, Outcome.bind_eq_ok]
  constructor
  · rintro ⟨⟨digits', rest'⟩, hdigits, h⟩
    by_cases hzero : digits'.head? = some '0' ∧ digits'.length ≠ 1
    · simp only [if_pos hzero] at h
      cases h
    · simp only [if_neg hzero] at h
      cases h
      exact ⟨hzero, hdigits⟩
  · rintro ⟨hzero, hdigits⟩
    refine ⟨(digits, rest), hdigits, ?_⟩
    simp only [if_neg hzero]
    rfl

theorem takes_scanWhole (digits : List Char) :
    Takes 1 (Off (isDigit · = true)) fun cs rest => scanWhole cs = .ok (digits, rest) :=
  (Takes.given fun _ => takes_scanDigits digits).congr fun _ _ => scanWhole_eq_ok

/-- The sign in front of a number. -/
def splitMinus : List Char → Bool × List Char
  | '-' :: rest => (true, rest)
  | rest => (false, rest)

theorem splitMinus_of_off (h : Off (· = '-') cs) : splitMinus cs = (false, cs) := by
  unfold splitMinus
  split
  · next tail => exact absurd rfl (h '-' rfl)
  · rfl

theorem takes_splitMinus (negative : Bool) :
    Takes 0 (Off (· = '-')) fun cs rest => splitMinus cs = (negative, rest) := by
  intro cs rest h
  unfold splitMinus at h
  split at h
  · next tail =>
    cases h
    exact ⟨['-'], Nat.zero_le _, rfl, fun more _ => rfl⟩
  · cases h
    exact ⟨[], Nat.zero_le _, rfl, fun more hmore => splitMinus_of_off hmore⟩

theorem scanSign_of_off (h : Off (fun c => c = '-' ∨ c = '+') cs) : scanSign cs = (false, cs) := by
  unfold scanSign
  split
  · exact absurd (Or.inl rfl) (h '-' rfl)
  · exact absurd (Or.inr rfl) (h '+' rfl)
  · rfl

theorem takes_scanSign (negative : Bool) :
    Takes 0 (Off fun c => c = '-' ∨ c = '+') fun cs rest => scanSign cs = (negative, rest) := by
  intro cs rest h
  unfold scanSign at h
  split at h
  · cases h
    exact ⟨['-'], Nat.zero_le _, rfl, fun more _ => rfl⟩
  · cases h
    exact ⟨['+'], Nat.zero_le _, rfl, fun more _ => rfl⟩
  · cases h
    exact ⟨[], Nat.zero_le _, rfl, fun more hmore => scanSign_of_off hmore⟩

-- A digit is no sign.
theorem off_of_digit {p : Char → Prop} (hp : ∀ c, p c → isDigit c = false) {text : List Char}
    (h : ∃ c tail, text ++ rest = c :: tail ∧ isDigit c = true) (hlength : 1 ≤ text.length)
    (more : List Char) : Off p (text ++ more) := by
  cases text with
  | nil => exact absurd hlength (Nat.not_succ_le_zero 0)
  | cons c text =>
      rcases h with ⟨c', tail, heq, hdigit⟩
      rw [List.cons_append, List.cons.injEq] at heq
      intro d hd hpd
      rw [← Option.some.inj hd, heq.1] at hpd
      rw [hp _ hpd] at hdigit
      exact Bool.false_ne_true hdigit

theorem scanFraction_eq_ok {fraction : Option (List Char)} :
    scanFraction cs = .ok (fraction, rest) ↔
      (∃ digits, fraction = some digits ∧ ∃ mid, cs = '.' :: mid ∧
        scanDigits mid = .ok (digits, rest)) ∨
      fraction = none ∧ cs = rest ∧ Off (· = '.') rest := by
  unfold scanFraction
  split
  · next tail =>
    rw [Outcome.map_eq_ok]
    constructor
    · rintro ⟨⟨digits, rest'⟩, hdigits, heq⟩
      rw [Prod.mk.injEq] at heq
      rcases heq with ⟨rfl, rfl⟩
      exact Or.inl ⟨digits, rfl, tail, rfl, hdigits⟩
    · rintro (⟨digits, rfl, mid, heq, hdigits⟩ | ⟨-, rfl, hoff⟩)
      · rw [List.cons.injEq] at heq
        rw [heq.2]
        exact ⟨(digits, rest), hdigits, rfl⟩
      · exact absurd rfl (hoff '.' rfl)
  · next hno =>
    rw [Except.ok.injEq, Prod.mk.injEq]
    constructor
    · rintro ⟨rfl, rfl⟩
      refine Or.inr ⟨rfl, rfl, ?_⟩
      rintro c hc rfl
      cases cs with
      | nil => cases hc
      | cons d tail => exact hno tail (by rw [Option.some.inj hc])
    · rintro (⟨digits, -, mid, heq, -⟩ | ⟨rfl, rfl, -⟩)
      · exact absurd heq (hno mid)
      · exact ⟨rfl, rfl⟩

theorem takes_scanFraction (fraction : Option (List Char)) :
    Takes 0 (Off fun c => isDigit c = true ∨ c = '.')
      fun cs rest => scanFraction cs = .ok (fraction, rest) := by
  refine Takes.congr (Takes.either (Takes.some fun digits => Takes.given fun _ => ?_)
    (Takes.given fun _ => ?_)) fun _ _ => scanFraction_eq_ok
  · exact ((takes_char '.').before (takes_scanDigits digits)).weaken (Nat.zero_le _)
      fun more hmore c hc hdigit => hmore c hc (Or.inl hdigit)
  · exact (takes_nothing _).weaken (Nat.le_refl 0) fun more hmore c hc hpoint =>
      hmore c hc (Or.inr hpoint)

theorem scanExponent_eq_ok {exponent : Option Int} :
    scanExponent cs = .ok (exponent, rest) ↔
      (∃ c, (c = 'e' ∨ c = 'E') ∧ ∃ negative digits,
        exponent = some (if negative then -(digitsValue digits : Int) else digitsValue digits) ∧
        ∃ mid, cs = c :: mid ∧ ∃ mid', scanSign mid = (negative, mid') ∧
          scanDigits mid' = .ok (digits, rest)) ∨
      exponent = none ∧ cs = rest ∧ Off (fun c => c = 'e' ∨ c = 'E') rest := by
  cases cs with
  | nil =>
      rw [scanExponent, Except.ok.injEq, Prod.mk.injEq]
      constructor
      · rintro ⟨rfl, rfl⟩
        exact Or.inr ⟨rfl, rfl, fun c hc => absurd hc (Option.not_mem_none c)⟩
      · rintro (⟨c, -, negative, digits, -, mid, heq, -⟩ | ⟨rfl, rfl, -⟩)
        · cases heq
        · exact ⟨rfl, rfl⟩
  | cons c cs =>
      rw [scanExponent]
      by_cases hc : c = 'e' ∨ c = 'E'
      · rw [if_pos hc]
        simp only [Outcome.bind_eq_ok]
        constructor
        · rintro ⟨⟨digits, rest'⟩, hdigits, heq⟩
          cases heq
          exact Or.inl ⟨c, hc, (scanSign cs).1, digits, rfl, cs, rfl, (scanSign cs).2, rfl, hdigits⟩
        · rintro (⟨c', -, negative, digits, rfl, mid, heq, mid', hsign, hdigits⟩ | ⟨-, rfl, hoff⟩)
          · rw [List.cons.injEq] at heq
            rw [heq.2, hsign]
            exact ⟨(digits, rest), hdigits, rfl⟩
          · exact absurd hc (hoff c rfl)
      · rw [if_neg hc, Except.ok.injEq, Prod.mk.injEq]
        constructor
        · rintro ⟨rfl, rfl⟩
          refine Or.inr ⟨rfl, rfl, fun d hd => ?_⟩
          rw [← Option.some.inj hd]
          exact hc
        · rintro (⟨c', hc', negative, digits, -, mid, heq, -⟩ | ⟨rfl, rfl, -⟩)
          · rw [List.cons.injEq] at heq
            exact absurd (heq.1 ▸ hc') hc
          · exact ⟨rfl, rfl⟩

theorem takes_scanExponent (exponent : Option Int) :
    Takes 0 Apart fun cs rest => scanExponent cs = .ok (exponent, rest) := by
  refine Takes.congr (Takes.either (Takes.some fun c => Takes.given fun _ => Takes.some
    fun negative => Takes.some fun digits => Takes.given fun _ => ?_)
    (Takes.given fun _ => ?_)) fun _ _ => scanExponent_eq_ok
  · have hsigned := (takes_scanSign negative).chain (takes_scanDigits digits)
      fun _ hdigits hlength more _ => off_of_digit (p := fun c => c = '-' ∨ c = '+')
        (by rintro d (rfl | rfl) <;> decide) (exists_digit hdigits) hlength more
    exact ((takes_char c).before hsigned).weaken (Nat.zero_le _) fun more hmore d hd hdigit =>
      Bool.eq_false_iff.mp (hmore d hd).1 hdigit
  · exact (takes_nothing _).weaken (Nat.le_refl 0) fun more hmore d hd hexp =>
      hexp.elim (hmore d hd).2.2.1 (hmore d hd).2.2.2

/-- A number is spelled at the start of a text, in these parts. -/
def Spelled (negative : Bool) (whole : List Char) (fraction : Option (List Char))
    (exponent : Option Int) (cs rest : List Char) : Prop :=
  ∃ mid, splitMinus cs = (negative, mid) ∧ ∃ mid', scanWhole mid = .ok (whole, mid') ∧
    ∃ mid'', scanFraction mid' = .ok (fraction, mid'') ∧ scanExponent mid'' = .ok (exponent, rest)

theorem takes_spelled (negative : Bool) (whole : List Char) (fraction : Option (List Char))
    (exponent : Option Int) : Takes 1 Apart (Spelled negative whole fraction exponent) := by
  -- What is read behind a part is nothing, or starts with a character of its own.
  have hexponent : ∀ {text rest : List Char}, scanExponent (text ++ rest) = .ok (exponent, rest) →
      Off (fun c => isDigit c = true ∨ c = '.') text := by
    intro text rest h
    rcases scanExponent_eq_ok.mp h with ⟨c, hc, -, -, -, mid, heq, -⟩ | ⟨-, heq, -⟩
    · have hboth : Off (fun c => isDigit c = true ∨ c = '.') (text ++ rest) := fun d hd => by
        rw [heq] at hd
        rw [← Option.some.inj hd]
        rcases hc with rfl | rfl <;> decide
      exact hboth.left
    · rw [List.append_left_eq_self.mp heq]
      exact fun c hc => absurd hc (Option.not_mem_none c)
  have hfraction : ∀ {text rest : List Char}, (∃ mid, scanFraction (text ++ rest) =
      .ok (fraction, mid) ∧ scanExponent mid = .ok (exponent, rest)) →
        Off (isDigit · = true) text := by
    rintro text rest ⟨mid, hfraction, h⟩
    rcases scanFraction_eq_ok.mp hfraction with ⟨digits, -, mid', heq, -⟩ | ⟨-, rfl, -⟩
    · have hboth : Off (isDigit · = true) (text ++ rest) := fun d hd => by
        rw [heq] at hd
        rw [← Option.some.inj hd]
        decide
      exact hboth.left
    · exact fun d hd hdigit => hexponent h d hd (Or.inl hdigit)
  have hbehind := (takes_scanFraction fraction).chain (takes_scanExponent exponent)
    fun _ h _ more hmore => (hexponent h).append fun c hc hstop =>
      hstop.elim (Bool.eq_false_iff.mp (hmore c hc).1) (hmore c hc).2.1
  have hunsigned := (takes_scanWhole whole).chain hbehind
    fun _ h _ more hmore => (hfraction h).append fun c hc =>
      Bool.eq_false_iff.mp (hmore c hc).1
  refine ((takes_splitMinus negative).chain hunsigned fun _ h hlength more _ => ?_).weaken
    (Nat.le_refl 1) fun _ h => h
  rcases h with ⟨mid, hwhole, -⟩
  exact off_of_digit (by rintro d rfl; decide) (exists_digit (scanWhole_eq_ok.mp hwhole).2)
    hlength more

/-- A number starts with its sign or a digit. -/
theorem Spelled.head {negative : Bool} {whole : List Char} {fraction : Option (List Char)}
    {exponent : Option Int} (h : Spelled negative whole fraction exponent cs rest) :
    ∃ c tail, cs = c :: tail ∧ (c = '-' ∨ isDigit c = true) := by
  rcases h with ⟨mid, hminus, mid', hwhole, -⟩
  rcases exists_digit (scanWhole_eq_ok.mp hwhole).2 with ⟨c, tail, hmid, hdigit⟩
  unfold splitMinus at hminus
  split at hminus
  · next tail' => exact ⟨'-', tail', rfl, Or.inl rfl⟩
  · cases hminus
    exact ⟨c, tail, hmid, Or.inr hdigit⟩

theorem scanNumber_eq_ok {n : Number} : scanNumber cs = .ok (n, rest) ↔
    ∃ negative whole fraction exponent, ofParts negative whole fraction exponent = .ok n ∧
      Spelled negative whole fraction exponent cs rest := by
  have hdo : scanNumber cs = (do
      let whole ← scanWhole (splitMinus cs).2
      let fraction ← scanFraction whole.2
      let exponent ← scanExponent fraction.2
      let n ← ofParts (splitMinus cs).1 whole.1 fraction.1 exponent.1
      return (n, exponent.2)) := rfl
  rw [hdo]
  simp only [Outcome.bind_eq_ok]
  constructor
  · rintro ⟨⟨whole, mid'⟩, hwhole, ⟨fraction, mid''⟩, hfraction, ⟨exponent, last⟩, hexponent, n',
      hparts, heq⟩
    cases heq
    exact ⟨_, whole, fraction, exponent, hparts, _, rfl, mid', hwhole, mid'', hfraction, hexponent⟩
  · rintro ⟨negative, whole, fraction, exponent, hparts, mid, hminus, mid', hwhole, mid'',
      hfraction, hexponent⟩
    rw [hminus]
    exact ⟨(whole, mid'), hwhole, (fraction, mid''), hfraction, (exponent, rest), hexponent, n,
      hparts, rfl⟩

theorem firm_scanNumber : Firm Apart scanNumber := fun _ =>
  Takes.congr (Takes.some fun negative => Takes.some fun whole => Takes.some fun fraction =>
    Takes.some fun exponent => Takes.given fun _ => takes_spelled negative whole fraction exponent)
    fun _ _ => scanNumber_eq_ok

theorem passNumber_eq_ok : passNumber cs = .ok rest ↔
    ∃ negative whole fraction exponent, Spelled negative whole fraction exponent cs rest := by
  have hdo : passNumber cs = Except.mapError (fun _ => Fault.malformed) (do
      let whole ← scanWhole (splitMinus cs).2
      let fraction ← scanFraction whole.2
      let exponent ← scanExponent fraction.2
      return exponent.2) := by
    cases cs with
    | nil => rfl
    | cons c tail =>
        by_cases hminus : c = '-'
        · rw [hminus]
          rfl
        · have hoff : Off (· = '-') (c :: tail) := by
            intro d hd
            cases hd
            exact hminus
          rw [splitMinus_of_off hoff]
          unfold passNumber
          split
          · next heq => exact absurd (List.cons.inj heq).1 hminus
          · rfl
  rw [hdo, Outcome.mapError_eq_ok]
  simp only [Outcome.bind_eq_ok]
  constructor
  · rintro ⟨⟨whole, mid'⟩, hwhole, ⟨fraction, mid''⟩, hfraction, ⟨exponent, last⟩, hexponent, heq⟩
    cases heq
    exact ⟨_, whole, fraction, exponent, _, rfl, mid', hwhole, mid'', hfraction, hexponent⟩
  · rintro ⟨negative, whole, fraction, exponent, mid, hminus, mid', hwhole, mid'', hfraction,
      hexponent⟩
    rw [hminus]
    exact ⟨(whole, mid'), hwhole, (fraction, mid''), hfraction, (exponent, rest), hexponent, rfl⟩

theorem takes_passNumber : Takes 1 Apart fun cs rest => passNumber cs = .ok rest :=
  Takes.congr (Takes.some fun negative => Takes.some fun whole => Takes.some fun fraction =>
    Takes.some fun exponent => takes_spelled negative whole fraction exponent)
    fun _ _ => passNumber_eq_ok

end Json

end NestedColumns
