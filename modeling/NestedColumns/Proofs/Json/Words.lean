import NestedColumns.Json.Lexical
import NestedColumns.Json.Printer
import NestedColumns.Proofs.Cut

/-!
# Words that are read back

A string is read back from its quoted form, whatever characters it has, and a whole number
from its digits. A number shows where it ends only by what follows, so nothing may follow
that could be a part of it.

What a cut leaves of a string is found to be incomplete wherever the cut is. Of a number it
leaves a smaller one, or nothing.

## Main definitions

* `Json.Apart`: What follows is no part of a number.

## Theorems

* `Json.escaped_cases`: How a character is written.
* `Json.scanString_quoted`: A string is read back.
* `Json.scanString_cut`: A string that is cut off is incomplete.
* `Json.scanNumber_digits`: A number is read up to its end.
* `Json.exists_of_prefix_digits`: What a cut leaves of a number.
-/

namespace NestedColumns

namespace Json

/-! ### Strings -/

theorem hexValue?_hexDigit : ∀ d, d < 16 → hexValue? (hexDigit d) = some d := by decide

theorem utf8Size_hexDigit : ∀ d, d < 16 → (hexDigit d).utf8Size = 1 := by decide

-- A character is written by a letter, by four digits, or as it is.
theorem escaped_cases (c : Char) :
    (∃ letter, escaped c = ['\\', letter] ∧ letter ≠ 'u' ∧ escapeLetter? letter = some c) ∨
      (escaped c = ['\\', 'u', '0', '0', hexDigit (c.toNat / 16), hexDigit (c.toNat % 16)] ∧
        c.toNat < 0x20) ∨
      (escaped c = [c] ∧ c ≠ '"' ∧ c ≠ '\\' ∧ ¬c.toNat < 0x20) := by
  rw [escaped]
  split
  · next h => exact Or.inl ⟨_, rfl, by decide, by rw [h]; rfl⟩
  · next hquote =>
    split
    · next h => exact Or.inl ⟨_, rfl, by decide, by rw [h]; rfl⟩
    · next hslash =>
      split
      · next h => exact Or.inl ⟨_, rfl, by decide, by rw [h]; rfl⟩
      · split
        · next h => exact Or.inl ⟨_, rfl, by decide, by rw [h]; rfl⟩
        · split
          · next h => exact Or.inl ⟨_, rfl, by decide, by rw [h]; rfl⟩
          · split
            · next h => exact Or.inl ⟨_, rfl, by decide, by rw [h]; rfl⟩
            · split
              · next h => exact Or.inl ⟨_, rfl, by decide, by rw [h]; rfl⟩
              · split
                · next hcontrol => exact Or.inr (Or.inl ⟨rfl, hcontrol⟩)
                · next hcontrol => exact Or.inr (Or.inr ⟨rfl, hquote, hslash, hcontrol⟩)

-- A backslash begins an escape.
theorem scanStringFrom_escape (read cs : List Char) :
    scanStringFrom .plain read ('\\' :: cs) = scanStringFrom .escape read cs := by
  have hquote : ('\\' : Char) ≠ '"' := by decide
  rw [scanStringFrom, if_neg hquote, if_pos rfl]

-- A control character is written with four digits, of which the first two are zeros.
theorem scanStringFrom_unicode {c : Char} (hc : c.toNat < 0x20) (read cs : List Char) :
    scanStringFrom .plain read
      ('\\' :: 'u' :: '0' :: '0' :: hexDigit (c.toNat / 16) :: hexDigit (c.toNat % 16) :: cs) =
        scanStringFrom .plain (c :: read) cs := by
  have hhigh : c.toNat / 16 < 16 := by omega
  have hlow : c.toNat % 16 < 16 := by omega
  have hzero : hexValue? '0' = some 0 := by decide
  have hquad : hexQuad ('0' :: '0' :: hexDigit (c.toNat / 16) :: hexDigit (c.toNat % 16) :: cs) =
      .ok ((((0 * 16 + 0) * 16 + 0) * 16 + c.toNat / 16) * 16 + c.toNat % 16) := by
    have hsize : '0'.utf8Size = 1 := by decide
    rw [hexQuad]
    simp only [List.take_succ_cons, List.take_zero, List.map_cons, List.map_nil, List.sum_cons,
      List.sum_nil, hsize, utf8Size_hexDigit _ hhigh, utf8Size_hexDigit _ hlow, List.mapM_cons,
      List.mapM_nil, hzero, hexValue?_hexDigit _ hhigh, hexValue?_hexDigit _ hlow]
    rfl
  have hvalue : (((0 * 16 + 0) * 16 + 0) * 16 + c.toNat / 16) * 16 + c.toNat % 16 = c.toNat := by
    omega
  have hunits : ofUnits c.toNat none = .ok (.inl c) := by
    rw [ofUnits, if_neg (by omega), if_neg (by omega), Char.ofNat_toNat]
  rw [scanStringFrom_escape, scanStringFrom, if_pos rfl, hquad]
  simp only [scanStringFrom, hzero, hexValue?_hexDigit _ hhigh, hexValue?_hexDigit _ hlow,
    Option.getD_some, hvalue, hunits]
  simp only [Nat.reduceLT, Nat.reduceSub, Nat.lt_irrefl, if_true, if_false]

-- One character is read at a time.
theorem scanStringFrom_escaped (c : Char) (read cs : List Char) :
    scanStringFrom .plain read (escaped c ++ cs) = scanStringFrom .plain (c :: read) cs := by
  rcases escaped_cases c with ⟨letter, heq, hu, hletter⟩ | ⟨heq, hcontrol⟩ |
    ⟨heq, hquote, hslash, hcontrol⟩
  · rw [heq]
    change scanStringFrom .plain read ('\\' :: letter :: cs) = _
    rw [scanStringFrom_escape, scanStringFrom, if_neg hu, hletter]
  · rw [heq]
    exact scanStringFrom_unicode hcontrol read cs
  · rw [heq, List.singleton_append, scanStringFrom, if_neg hquote, if_neg hslash, if_neg hcontrol]

theorem scanStringFrom_flatMap (s read rest : List Char) :
    scanStringFrom .plain read (s.flatMap escaped ++ '"' :: rest) =
      .ok (String.ofList (read.reverse ++ s), rest) := by
  induction s generalizing read with
  | nil =>
      rw [List.flatMap_nil, List.nil_append, scanStringFrom, if_pos rfl, List.append_nil]
  | cons c s ih =>
      rw [List.flatMap_cons, List.append_assoc, scanStringFrom_escaped, ih, List.reverse_cons,
        List.append_assoc, List.singleton_append]

/-- A string is read back from behind its opening quote. -/
theorem scanString_quoted (s : String) (rest : List Char) :
    scanString (s.toList.flatMap escaped ++ '"' :: rest) = .ok (s, rest) := by
  rw [scanString, scanStringFrom_flatMap, List.reverse_nil, List.nil_append, String.ofList_toList]

theorem quoted_append (s : String) (rest : List Char) :
    quoted s ++ rest = '"' :: (s.toList.flatMap escaped ++ '"' :: rest) := by
  rw [quoted, List.cons_append, List.append_assoc, List.singleton_append]

-- The digits of an escape are counted before they are read.
theorem scanStringFrom_digits_cut {digits : List Char} (hsize : (digits.map Char.utf8Size).sum < 4)
    (hlength : digits.length < 4) (read : List Char) :
    scanStringFrom .plain read ('\\' :: 'u' :: digits) = .error .incomplete := by
  have hfour : hexQuad digits = .error .incomplete := by
    rw [hexQuad, List.take_of_length_le (by omega), if_pos hsize]
  rw [scanStringFrom_escape, scanStringFrom, if_pos rfl, hfour]

theorem scanStringFrom_unicode_cut {c : Char} {part : List Char} (hcontrol : c.toNat < 0x20)
    (h : Cut part ['\\', 'u', '0', '0', hexDigit (c.toNat / 16), hexDigit (c.toNat % 16)])
    (read : List Char) : scanStringFrom .plain read part = .error .incomplete := by
  have hsize : '0'.utf8Size = 1 := by decide
  have hhigh := utf8Size_hexDigit (c.toNat / 16) (by omega)
  rcases cut_cons h with rfl | ⟨more, rfl, hrest⟩
  · rfl
  rcases cut_cons hrest with rfl | ⟨digits, rfl, hdigits⟩
  · rfl
  refine scanStringFrom_digits_cut ?_ hdigits.length_lt read
  rcases cut_cons hdigits with rfl | ⟨second, rfl, hsecond⟩
  · decide
  rcases cut_cons hsecond with rfl | ⟨third, rfl, hthird⟩
  · decide
  rcases cut_cons hthird with rfl | ⟨last, rfl, hlast⟩
  · decide
  rw [cut_singleton hlast]
  simp only [List.map_cons, List.map_nil, List.sum_cons, List.sum_nil, hsize, hhigh]
  decide

theorem scanStringFrom_escaped_cut {c : Char} {part : List Char} (h : Cut part (escaped c))
    (read : List Char) : scanStringFrom .plain read part = .error .incomplete := by
  rcases escaped_cases c with ⟨letter, heq, -, -⟩ | ⟨heq, hcontrol⟩ | ⟨heq, -, -, -⟩
  · rw [heq] at h
    rcases cut_cons h with rfl | ⟨more, rfl, hmore⟩
    · rfl
    · rw [cut_singleton hmore]
      rfl
  · rw [heq] at h
    exact scanStringFrom_unicode_cut hcontrol h read
  · rw [heq] at h
    rw [cut_singleton h]
    rfl

theorem scanStringFrom_cut {s part : List Char} (h : Cut part (s.flatMap escaped ++ ['"']))
    (read : List Char) : scanStringFrom .plain read part = .error .incomplete := by
  induction s generalizing part read with
  | nil =>
      rw [cut_singleton h]
      rfl
  | cons c s ih =>
      rw [List.flatMap_cons, List.append_assoc] at h
      rcases cut_append h with hcut | ⟨more, rfl, hmore⟩
      · exact scanStringFrom_escaped_cut hcut read
      · rw [scanStringFrom_escaped, ih hmore]

/-- A string that is cut off behind its opening quote is incomplete. -/
theorem scanString_cut {s : String} {part : List Char}
    (h : Cut part (s.toList.flatMap escaped ++ ['"'])) :
    scanString part = .error .incomplete :=
  scanStringFrom_cut h []

/-! ### Numbers -/

/-- What follows is no part of a number: neither a digit nor a sign of a fraction or an
    exponent. -/
def Apart (rest : List Char) : Prop :=
  ∀ c ∈ rest.head?, isDigit c = false ∧ c ≠ '.' ∧ c ≠ 'e' ∧ c ≠ 'E'

theorem apart_nil : Apart [] := by
  intro c hc
  cases hc

theorem apart_cons {c : Char} (rest : List Char)
    (h : isDigit c = false ∧ c ≠ '.' ∧ c ≠ 'e' ∧ c ≠ 'E') : Apart (c :: rest) := by
  intro c' hc'
  rw [← Option.some.inj hc']
  exact h

theorem isDigit_digitChar : ∀ d : Nat, d < 10 → isDigit d.digitChar = true := by decide

theorem toNat_digitChar : ∀ d : Nat, d < 10 → d.digitChar.toNat - 48 = d := by decide

theorem digitChar_eq_zero : ∀ d : Nat, d < 10 → d.digitChar = '0' → d = 0 := by decide

-- The induction is on the number, a tenth of which has all digits but the last.
theorem digitsValue_toDigits (n : Nat) : digitsValue (Nat.toDigits 10 n) = n := by
  induction n using Nat.strongRecOn with
  | ind n ih =>
      rw [Nat.toDigits_eq_if (by decide)]
      by_cases hn : n < 10
      · rw [if_pos hn, digitsValue, List.foldl_cons, List.foldl_nil, toNat_digitChar n hn]
        omega
      · rw [if_neg hn, digitsValue, List.foldl_append, List.foldl_cons, List.foldl_nil]
        have hrest := ih (n / 10) (by omega)
        rw [digitsValue] at hrest
        rw [hrest, toNat_digitChar (n % 10) (by omega)]
        omega

theorem isDigit_of_mem_toDigits (n : Nat) : ∀ c ∈ Nat.toDigits 10 n, isDigit c = true := by
  induction n using Nat.strongRecOn with
  | ind n ih =>
      intro c hc
      rw [Nat.toDigits_eq_if (by decide)] at hc
      by_cases hn : n < 10
      · rw [if_pos hn, List.mem_singleton] at hc
        rw [hc]
        exact isDigit_digitChar n hn
      · rw [if_neg hn, List.mem_append, List.mem_singleton] at hc
        rcases hc with hc | rfl
        · exact ih (n / 10) (by omega) c hc
        · exact isDigit_digitChar (n % 10) (by omega)

-- Only zero starts with a zero.
theorem head_toDigits (n : Nat) (h : (Nat.toDigits 10 n).head? = some '0') :
    (Nat.toDigits 10 n).length = 1 := by
  have hzero : n = 0 := by
    induction n using Nat.strongRecOn with
    | ind n ih =>
        rw [Nat.toDigits_eq_if (by decide)] at h
        by_cases hn : n < 10
        · rw [if_pos hn, List.head?_cons, Option.some.injEq] at h
          exact digitChar_eq_zero n hn h
        · rw [if_neg hn, List.head?_append_of_ne_nil _ Nat.toDigits_ne_nil] at h
          have hten := ih (n / 10) (by omega) h
          omega
  rw [hzero]
  rfl

/-- What a cut leaves of a number is a number that is no larger, or nothing. -/
theorem exists_of_prefix_digits {n : Nat} {part : List Char} (h : part <+: Nat.toDigits 10 n)
    (hne : part ≠ []) : ∃ m ≤ n, part = Nat.toDigits 10 m := by
  induction n using Nat.strongRecOn with
  | ind n ih =>
      rw [Nat.toDigits_eq_if (by decide)] at h
      by_cases hn : n < 10
      · rw [if_pos hn] at h
        rcases List.prefix_cons_iff.mp h with hnil | ⟨more, rfl, hmore⟩
        · exact absurd hnil hne
        · refine ⟨n, Nat.le_refl n, ?_⟩
          rw [List.prefix_nil.mp hmore, Nat.toDigits_eq_if (by decide), if_pos hn]
      · rw [if_neg hn] at h
        rcases List.prefix_concat_iff.mp h with hall | hless
        · refine ⟨n, Nat.le_refl n, ?_⟩
          rw [hall, Nat.toDigits_eq_if (n := n) (by decide), if_neg hn]
        · rcases ih (n / 10) (by omega) hless with ⟨m, hm, hpart⟩
          exact ⟨m, by omega, hpart⟩

theorem scanDigits_append {digits rest : List Char} (hd : ∀ c ∈ digits, isDigit c = true)
    (hne : digits ≠ []) (hr : ∀ c ∈ rest.head?, isDigit c = false) :
    scanDigits (digits ++ rest) = .ok (digits, rest) := by
  have htake : rest.takeWhile isDigit = [] := by
    cases rest with
    | nil => rfl
    | cons c rest => rw [List.takeWhile_cons_of_neg (by rw [hr c rfl]; exact Bool.false_ne_true)]
  have hdrop : rest.dropWhile isDigit = rest := by
    cases rest with
    | nil => rfl
    | cons c rest => rw [List.dropWhile_cons_of_neg (by rw [hr c rfl]; exact Bool.false_ne_true)]
  have hempty : digits.isEmpty = false := List.isEmpty_eq_false_iff.mpr hne
  rw [scanDigits, List.takeWhile_append_of_pos hd, List.dropWhile_append_of_pos hd, htake, hdrop,
    List.append_nil]
  simp only [hempty, Bool.false_eq_true, if_false]

theorem scanWhole_digits (n : Nat) {rest : List Char} (hr : Apart rest) :
    scanWhole (Nat.toDigits 10 n ++ rest) = .ok (Nat.toDigits 10 n, rest) := by
  rw [scanWhole, scanDigits_append (isDigit_of_mem_toDigits n) Nat.toDigits_ne_nil
    fun c hc => (hr c hc).1]
  have hhead : ¬ ((Nat.toDigits 10 n).head? = some '0' ∧ (Nat.toDigits 10 n).length ≠ 1) :=
    fun h => h.2 (head_toDigits n h.1)
  simp only [bind, Except.bind, if_neg hhead, pure, Except.pure]

theorem scanFraction_apart {rest : List Char} (hr : Apart rest) :
    scanFraction rest = .ok (none, rest) := by
  cases rest with
  | nil => rfl
  | cons c rest =>
      rw [scanFraction]
      rintro tail ⟨⟩
      exact (hr '.' rfl).2.1 rfl

theorem scanExponent_apart {rest : List Char} (hr : Apart rest) :
    scanExponent rest = .ok (none, rest) := by
  cases rest with
  | nil => rfl
  | cons c rest =>
      have hne := hr c rfl
      have hnot : ¬ (c = 'e' ∨ c = 'E') := fun h => h.elim hne.2.2.1 hne.2.2.2
      rw [scanExponent, if_neg hnot]

theorem ofParts_digits (n : Nat) :
    n < 2 ^ 64 ∧ ofParts false (Nat.toDigits 10 n) none none = .ok (.whole n) ∨
      2 ^ 64 ≤ n ∧ (ofParts false (Nat.toDigits 10 n) none none = .error .malformed ∨
        ∃ d, ofParts false (Nat.toDigits 10 n) none none = .ok (.double d)) := by
  rw [ofParts]
  simp only [digitsValue_toDigits, Bool.false_eq_true, if_false]
  by_cases hn : n < 2 ^ 64
  · rw [if_pos hn]
    exact Or.inl ⟨hn, rfl⟩
  · rw [if_neg hn]
    refine Or.inr ⟨by omega, ?_⟩
    split
    · exact Or.inr ⟨_, rfl⟩
    · exact Or.inl rfl

/-- The digits of a number are read up to their end. -/
theorem scanNumber_digits (n : Nat) {rest : List Char} (hr : Apart rest) :
    scanNumber (Nat.toDigits 10 n ++ rest) =
      (ofParts false (Nat.toDigits 10 n) none none).map (·, rest) := by
  have hminus : ∀ tail, Nat.toDigits 10 n ++ rest ≠ '-' :: tail := by
    intro tail heq
    cases hdigits : Nat.toDigits 10 n with
    | nil => exact Nat.toDigits_ne_nil hdigits
    | cons c digits =>
        have hc := isDigit_of_mem_toDigits n c (hdigits ▸ List.mem_cons_self)
        rw [hdigits, List.cons_append, List.cons.injEq] at heq
        rw [heq.1] at hc
        revert hc
        decide
  rw [scanNumber, scanWhole_digits n hr]
  · simp only [bind, Except.bind, scanFraction_apart hr, scanExponent_apart hr]
    cases ofParts false (Nat.toDigits 10 n) none none <;> rfl
  · exact hminus

end Json

end NestedColumns
