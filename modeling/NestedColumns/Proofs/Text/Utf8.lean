import NestedColumns.Text.Utf8
import Mathlib.Data.List.Basic

/-!
# Texts as bytes and back

Every text is read back from its bytes, whatever follows it. A character is read
byte by byte: its first byte says how many follow, and each of those contributes
six bits, so at the end its code point is put together again.

## Theorems

* `Utf8.decodeFrom_encodeChar`: The bytes of a character.
* `Utf8.read?_encode`: The bytes of a text.
* `Utf8.eq_encode_of_read?`: Bytes that are read are those of their text.
* `Utf8.length_encode`: How many there are.
-/

namespace NestedColumns

namespace Utf8

theorem toNat_ofNat_of_lt {b : Nat} (h : b < 256) : (UInt8.ofNat b).toNat = b := by
  rw [UInt8.toNat_ofNat', Nat.mod_eq_of_lt h]

theorem decodeFrom_single {b : Nat} {c : Char} (hb : b < 256) (h : start b = .character c)
    (rest : List UInt8) :
    decodeFrom none (UInt8.ofNat b :: rest) = some c :: decodeFrom none rest := by
  rw [decodeFrom, toNat_ofNat_of_lt hb, h]

theorem decodeFrom_first {b : Nat} {p : Unfinished} (hb : b < 256)
    (h : start b = .unfinished p) (rest : List UInt8) :
    decodeFrom none (UInt8.ofNat b :: rest) = decodeFrom (some p) rest := by
  rw [decodeFrom, toNat_ofNat_of_lt hb, h]

-- A byte in the middle of a character.
theorem decodeFrom_next {value owed low high b : Nat} (hlow : low ≤ b) (hhigh : b ≤ high)
    (hb : b < 256) (rest : List UInt8) :
    decodeFrom (some ⟨value, owed + 2, low, high⟩) (UInt8.ofNat b :: rest) =
      decodeFrom (some ⟨value * 64 + (b - 0x80), owed + 1, 0x80, 0xBF⟩) rest := by
  have howed : ¬ owed + 2 ≤ 1 := by omega
  rw [decodeFrom, toNat_ofNat_of_lt hb, if_pos ⟨hlow, hhigh⟩, Unfinished.advance]
  simp only [if_neg howed]
  rfl

-- The last byte of a character.
theorem decodeFrom_last {value low high b : Nat} (hlow : low ≤ b) (hhigh : b ≤ high)
    (hb : b < 256) (rest : List UInt8) :
    decodeFrom (some ⟨value, 1, low, high⟩) (UInt8.ofNat b :: rest) =
      some (Char.ofNat (value * 64 + (b - 0x80))) :: decodeFrom none rest := by
  rw [decodeFrom, toNat_ofNat_of_lt hb, if_pos ⟨hlow, hhigh⟩, Unfinished.advance]
  simp only [if_pos (Nat.le_refl 1)]

/-! ### First bytes -/

theorem start_two {b : Nat} (hlow : 0xC2 ≤ b) (hhigh : b < 0xE0) :
    start b = .unfinished ⟨b - 0xC0, 1, 0x80, 0xBF⟩ := by
  rw [start, if_neg (by omega), if_neg (by omega), if_pos hhigh]

-- The second byte of an overlong form and of a surrogate is out of range.
theorem start_three {b : Nat} (hlow : 0xE0 ≤ b) (hhigh : b < 0xF0) :
    start b = .unfinished ⟨b - 0xE0, 2, if b = 0xE0 then 0xA0 else 0x80,
      if b = 0xED then 0x9F else 0xBF⟩ := by
  rw [start, if_neg (by omega), if_neg (by omega), if_neg (by omega)]
  by_cases h : b = 0xE0
  · rw [if_pos h, if_pos h, if_neg (by omega), h]
  · rw [if_neg h, if_neg h]
    by_cases h' : b = 0xED
    · rw [if_pos h', if_pos h', h']
    · rw [if_neg h', if_neg h', if_pos hhigh]

-- The second byte of a code point that is too large is out of range.
theorem start_four {b : Nat} (hlow : 0xF0 ≤ b) (hhigh : b ≤ 0xF4) :
    start b = .unfinished ⟨b - 0xF0, 3, if b = 0xF0 then 0x90 else 0x80,
      if b = 0xF4 then 0x8F else 0xBF⟩ := by
  rw [start, if_neg (by omega), if_neg (by omega), if_neg (by omega), if_neg (by omega),
    if_neg (by omega), if_neg (by omega)]
  by_cases h : b = 0xF0
  · rw [if_pos h, if_pos h, if_neg (by omega), h]
  · rw [if_neg h, if_neg h]
    by_cases h' : b = 0xF4
    · rw [if_neg (by omega), if_pos h', if_pos h', h']
    · rw [if_pos (by omega), if_neg h']

/-! ### Characters and texts -/

theorem decodeFrom_encodeChar (c : Char) (rest : List UInt8) :
    decodeFrom none (String.utf8EncodeChar c ++ rest) = some c :: decodeFrom none rest := by
  have hvalid : c.toNat < 0xD800 ∨ 0xDFFF < c.toNat ∧ c.toNat < 0x110000 := c.valid
  have hchar : Char.ofNat c.toNat = c := Char.ofNat_toNat c
  rw [String.utf8EncodeChar]
  generalize hv : c.val.toNat = v
  have hc : c.toNat = v := hv
  rw [hc] at hvalid hchar
  by_cases h₁ : v ≤ 0x7f
  · have hstart : start v = .character c := by
      rw [start, if_pos (by omega), hchar]
    rw [if_pos h₁]
    exact decodeFrom_single (by omega) hstart rest
  · by_cases h₂ : v ≤ 0x7ff
    · have hvalue : (v / 64 % 32 + 0xC0 - 0xC0) * 64 + (v % 64 + 0x80 - 0x80) = v := by omega
      rw [if_neg h₁, if_pos h₂, List.cons_append, List.cons_append, List.nil_append,
        decodeFrom_first (by omega) (start_two (by omega) (by omega)),
        decodeFrom_last (by omega) (by omega) (by omega), hvalue, hchar]
    · by_cases h₃ : v ≤ 0xffff
      · have hvalue : ((v / 4096 % 16 + 0xE0 - 0xE0) * 64 + (v / 64 % 64 + 0x80 - 0x80)) * 64 +
            (v % 64 + 0x80 - 0x80) = v := by omega
        have hlow : (if v / 4096 % 16 + 0xE0 = 0xE0 then 0xA0 else 0x80) ≤ v / 64 % 64 + 0x80 := by
          split <;> omega
        have hhigh : v / 64 % 64 + 0x80 ≤ (if v / 4096 % 16 + 0xE0 = 0xED then 0x9F else 0xBF) := by
          split <;> omega
        rw [if_neg h₁, if_neg h₂, if_pos h₃]
        simp only [List.cons_append, List.nil_append]
        rw [decodeFrom_first (by omega) (start_three (by omega) (by omega)),
          decodeFrom_next hlow hhigh (by omega), decodeFrom_last (by omega) (by omega) (by omega),
          hvalue, hchar]
      · have hvalue : (((v / 262144 % 8 + 0xF0 - 0xF0) * 64 + (v / 4096 % 64 + 0x80 - 0x80)) * 64 +
            (v / 64 % 64 + 0x80 - 0x80)) * 64 + (v % 64 + 0x80 - 0x80) = v := by omega
        have hlow : (if v / 262144 % 8 + 0xF0 = 0xF0 then 0x90 else 0x80) ≤
            v / 4096 % 64 + 0x80 := by
          split <;> omega
        have hhigh : v / 4096 % 64 + 0x80 ≤
            (if v / 262144 % 8 + 0xF0 = 0xF4 then 0x8F else 0xBF) := by
          split <;> omega
        rw [if_neg h₁, if_neg h₂, if_neg h₃]
        simp only [List.cons_append, List.nil_append]
        rw [decodeFrom_first (by omega) (start_four (by omega) (by omega)),
          decodeFrom_next hlow hhigh (by omega), decodeFrom_next (by omega) (by omega) (by omega),
          decodeFrom_last (by omega) (by omega) (by omega), hvalue, hchar]

theorem decode_encode_append (text : List Char) (rest : List UInt8) :
    decode (encode text ++ rest) = text.map some ++ decode rest := by
  induction text with
  | nil => rfl
  | cons c text ih =>
      have hcons : encode (c :: text) = String.utf8EncodeChar c ++ encode text := rfl
      rw [hcons, List.append_assoc, decode, decodeFrom_encodeChar, List.map_cons, List.cons_append]
      exact congrArg _ ih

theorem mapM_id_map_some (text : List Char) : (text.map some).mapM id = some text := by
  induction text with
  | nil => rfl
  | cons c text ih =>
      rw [List.map_cons, List.mapM_cons, ih]
      rfl

theorem read?_encode (text : List Char) : read? (encode text) = some text := by
  have hdecode : decode (encode text ++ []) = text.map some ++ [] := decode_encode_append text []
  rw [List.append_nil, List.append_nil] at hdecode
  rw [read?, hdecode, mapM_id_map_some]

theorem length_encode (text : List Char) : (encode text).length = byteLength text := by
  rw [encode, List.length_flatMap, byteLength]
  simp only [String.length_utf8EncodeChar]

/-! ### Bytes that are read -/

theorem eq_map_some_of_mapM {read : List (Option Char)} {text : List Char}
    (h : read.mapM id = some text) : read = text.map some := by
  induction read generalizing text with
  | nil =>
      cases h
      rfl
  | cons c read ih =>
      rw [List.mapM_cons] at h
      cases c with
      | none => cases h
      | some c =>
          cases hrest : read.mapM id with
          | none =>
              rw [hrest] at h
              cases h
          | some more =>
              rw [hrest] at h
              cases h
              rw [ih hrest, List.map_cons]

theorem none_cons_ne (read : List (Option Char)) (text : List Char) :
    none :: read ≠ text.map some := by
  intro heq
  have hin : none ∈ text.map some := heq ▸ List.mem_cons_self
  rcases List.mem_map.mp hin with ⟨c, -, hc⟩
  cases hc

-- Inside a character the next byte is in its range, for else the start of the character would
-- be ill-formed.
theorem exists_of_decodeFrom {value owed low high : Nat} {bytes : List UInt8} {text : List Char}
    (h : decodeFrom (some ⟨value, owed, low, high⟩) bytes = text.map some) :
    ∃ b rest, bytes = b :: rest ∧ (low ≤ b.toNat ∧ b.toNat ≤ high) ∧
      (owed ≤ 1 → ∃ more, text = Char.ofNat (value * 64 + (b.toNat - 0x80)) :: more ∧
        decodeFrom none rest = more.map some) ∧
      (1 < owed → decodeFrom (some ⟨value * 64 + (b.toNat - 0x80), owed - 1, 0x80, 0xBF⟩) rest =
        text.map some) := by
  cases bytes with
  | nil => exact absurd h (none_cons_ne [] text)
  | cons b rest =>
      rw [decodeFrom] at h
      by_cases hrange : low ≤ b.toNat ∧ b.toNat ≤ high
      · rw [if_pos hrange, Unfinished.advance] at h
        refine ⟨b, rest, rfl, hrange, fun howed => ?_, fun howed => ?_⟩
        · simp only [if_pos howed] at h
          cases text with
          | nil => cases h
          | cons c more =>
              rw [List.map_cons, List.cons.injEq, Option.some.injEq] at h
              exact ⟨more, by rw [h.1], h.2⟩
        · simpa only [if_neg (Nat.not_le.mpr howed)] using h
      · rw [if_neg hrange] at h
        split at h
        · exact absurd h (none_cons_ne _ text)
        · exact absurd h (none_cons_ne _ text)
        · exact absurd h (none_cons_ne _ text)

theorem toNat_val_ofNat {v : Nat} (hv : v < 0xD800 ∨ 0xDFFF < v ∧ v < 0x110000) :
    (Char.ofNat v).val.toNat = v := by
  have hvalid : v.isValidChar := hv
  rw [Char.ofNat, dif_pos hvalid]
  rfl

section

variable {b₁ b₂ b₃ b₄ : UInt8}

theorem encodeChar_one (h₁ : b₁.toNat < 0x80) :
    String.utf8EncodeChar (Char.ofNat b₁.toNat) = [b₁] := by
  rw [String.utf8EncodeChar]
  simp only [toNat_val_ofNat (v := b₁.toNat) (by omega)]
  rw [if_pos (by omega), UInt8.ofNat_toNat]

theorem encodeChar_two (h₁ : 0xC2 ≤ b₁.toNat ∧ b₁.toNat < 0xE0)
    (h₂ : 0x80 ≤ b₂.toNat ∧ b₂.toNat ≤ 0xBF) :
    String.utf8EncodeChar (Char.ofNat ((b₁.toNat - 0xC0) * 64 + (b₂.toNat - 0x80))) =
      [b₁, b₂] := by
  generalize hv : (b₁.toNat - 0xC0) * 64 + (b₂.toNat - 0x80) = v
  have hfirst : v / 64 % 32 + 0xC0 = b₁.toNat := by omega
  have hsecond : v % 64 + 0x80 = b₂.toNat := by omega
  rw [String.utf8EncodeChar]
  simp only [toNat_val_ofNat (v := v) (by omega)]
  rw [if_neg (by omega), if_pos (by omega), hfirst, hsecond, UInt8.ofNat_toNat, UInt8.ofNat_toNat]

-- Overlong forms and surrogates are out of the range of the second byte.
theorem encodeChar_three (h₁ : 0xE0 ≤ b₁.toNat ∧ b₁.toNat < 0xF0)
    (hlow : (if b₁.toNat = 0xE0 then 0xA0 else 0x80) ≤ b₂.toNat)
    (hhigh : b₂.toNat ≤ if b₁.toNat = 0xED then 0x9F else 0xBF)
    (h₃ : 0x80 ≤ b₃.toNat ∧ b₃.toNat ≤ 0xBF) :
    String.utf8EncodeChar (Char.ofNat
      (((b₁.toNat - 0xE0) * 64 + (b₂.toNat - 0x80)) * 64 + (b₃.toNat - 0x80))) = [b₁, b₂, b₃] := by
  have h₂ : 0x80 ≤ b₂.toNat ∧ b₂.toNat ≤ 0xBF := by
    split at hlow <;> split at hhigh <;> omega
  generalize hv : ((b₁.toNat - 0xE0) * 64 + (b₂.toNat - 0x80)) * 64 + (b₃.toNat - 0x80) = v
  have hfirst : v / 4096 % 16 + 0xE0 = b₁.toNat := by omega
  have hsecond : v / 64 % 64 + 0x80 = b₂.toNat := by omega
  have hthird : v % 64 + 0x80 = b₃.toNat := by omega
  have hsize : 0x800 ≤ v ∧ v ≤ 0xffff := by
    split at hlow <;> omega
  have hvalid : v < 0xD800 ∨ 0xDFFF < v ∧ v < 0x110000 := by
    split at hhigh <;> omega
  rw [String.utf8EncodeChar]
  simp only [toNat_val_ofNat hvalid]
  rw [if_neg (by omega), if_neg (by omega), if_pos (by omega), hfirst, hsecond, hthird,
    UInt8.ofNat_toNat, UInt8.ofNat_toNat, UInt8.ofNat_toNat]

-- Code points that are too large are so too.
theorem encodeChar_four (h₁ : 0xF0 ≤ b₁.toNat ∧ b₁.toNat ≤ 0xF4)
    (hlow : (if b₁.toNat = 0xF0 then 0x90 else 0x80) ≤ b₂.toNat)
    (hhigh : b₂.toNat ≤ if b₁.toNat = 0xF4 then 0x8F else 0xBF)
    (h₃ : 0x80 ≤ b₃.toNat ∧ b₃.toNat ≤ 0xBF) (h₄ : 0x80 ≤ b₄.toNat ∧ b₄.toNat ≤ 0xBF) :
    String.utf8EncodeChar (Char.ofNat
      ((((b₁.toNat - 0xF0) * 64 + (b₂.toNat - 0x80)) * 64 + (b₃.toNat - 0x80)) * 64 +
        (b₄.toNat - 0x80))) = [b₁, b₂, b₃, b₄] := by
  have h₂ : 0x80 ≤ b₂.toNat ∧ b₂.toNat ≤ 0xBF := by
    split at hlow <;> split at hhigh <;> omega
  generalize hv : (((b₁.toNat - 0xF0) * 64 + (b₂.toNat - 0x80)) * 64 + (b₃.toNat - 0x80)) * 64 +
    (b₄.toNat - 0x80) = v
  have hfirst : v / 262144 % 8 + 0xF0 = b₁.toNat := by omega
  have hsecond : v / 4096 % 64 + 0x80 = b₂.toNat := by omega
  have hthird : v / 64 % 64 + 0x80 = b₃.toNat := by omega
  have hfourth : v % 64 + 0x80 = b₄.toNat := by omega
  have hsize : 0xffff < v := by
    split at hlow <;> omega
  have hvalid : v < 0x110000 := by
    split at hhigh <;> omega
  rw [String.utf8EncodeChar]
  simp only [toNat_val_ofNat (v := v) (by omega)]
  rw [if_neg (by omega), if_neg (by omega), if_neg (by omega), hfirst, hsecond, hthird, hfourth,
    UInt8.ofNat_toNat, UInt8.ofNat_toNat, UInt8.ofNat_toNat, UInt8.ofNat_toNat]

end

theorem encode_cons (c : Char) (text : List Char) :
    encode (c :: text) = String.utf8EncodeChar c ++ encode text := rfl

-- The induction is on the number of bytes, of which each character takes at least one.
theorem eq_encode_of_decodeFrom (bytes : List UInt8) {text : List Char}
    (h : decodeFrom none bytes = text.map some) : bytes = encode text := by
  induction hn : bytes.length using Nat.strongRecOn generalizing bytes text with
  | ind n ih =>
      cases bytes with
      | nil =>
          rw [decodeFrom] at h
          rw [List.map_eq_nil_iff.mp h.symm]
          rfl
      | cons b₁ rest =>
          rw [decodeFrom] at h
          rw [List.length_cons] at hn
          by_cases hone : b₁.toNat < 0x80
          · have hstart : start b₁.toNat = .character (Char.ofNat b₁.toNat) := by
              rw [start, if_pos hone]
            simp only [hstart] at h
            cases text with
            | nil => cases h
            | cons c more =>
                rw [List.map_cons, List.cons.injEq, Option.some.injEq] at h
                rw [encode_cons, ← h.1, encodeChar_one hone, ← ih _ (by omega) rest h.2 rfl]
                rfl
          by_cases hill : b₁.toNat < 0xC2 ∨ 0xF4 < b₁.toNat
          · have hstart : start b₁.toNat = .illFormed := by
              rw [start, if_neg hone]
              rcases hill with hlow | hhigh
              · rw [if_pos hlow]
              · rw [if_neg (by omega), if_neg (by omega), if_neg (by omega), if_neg (by omega),
                  if_neg (by omega), if_neg (by omega), if_neg (by omega), if_neg (by omega)]
            simp only [hstart] at h
            exact absurd h (none_cons_ne _ text)
          by_cases htwo : b₁.toNat < 0xE0
          · simp only [start_two (by omega) htwo] at h
            rcases exists_of_decodeFrom h with ⟨b₂, rest, rfl, hrange₂, hlast, -⟩
            rcases hlast (Nat.le_refl 1) with ⟨more, rfl, hmore⟩
            rw [List.length_cons] at hn
            rw [encode_cons, encodeChar_two ⟨by omega, htwo⟩ hrange₂,
              ← ih _ (by omega) rest hmore rfl]
            rfl
          by_cases hthree : b₁.toNat < 0xF0
          · simp only [start_three (by omega) hthree] at h
            rcases exists_of_decodeFrom h with ⟨b₂, rest, rfl, hrange₂, -, hnext⟩
            rcases exists_of_decodeFrom (hnext (by decide)) with ⟨b₃, rest, rfl, hrange₃, hlast, -⟩
            rcases hlast (Nat.le_refl 1) with ⟨more, rfl, hmore⟩
            rw [List.length_cons, List.length_cons] at hn
            rw [encode_cons, encodeChar_three ⟨by omega, hthree⟩ hrange₂.1 hrange₂.2 hrange₃,
              ← ih _ (by omega) rest hmore rfl]
            rfl
          · simp only [start_four (b := b₁.toNat) (by omega) (by omega)] at h
            rcases exists_of_decodeFrom h with ⟨b₂, rest, rfl, hrange₂, -, hnext⟩
            rcases exists_of_decodeFrom (hnext (by decide)) with ⟨b₃, rest, rfl, hrange₃, -, hnext'⟩
            rcases exists_of_decodeFrom (hnext' (by decide)) with ⟨b₄, rest, rfl, hrange₄, hlast, -⟩
            rcases hlast (Nat.le_refl 1) with ⟨more, rfl, hmore⟩
            rw [List.length_cons, List.length_cons, List.length_cons] at hn
            rw [encode_cons,
              encodeChar_four ⟨by omega, by omega⟩ hrange₂.1 hrange₂.2 hrange₃ hrange₄,
              ← ih _ (by omega) rest hmore rfl]
            rfl

theorem eq_encode_of_read? {bytes : List UInt8} {text : List Char} (h : read? bytes = some text) :
    bytes = encode text :=
  eq_encode_of_decodeFrom bytes (eq_map_some_of_mapM h)

end Utf8

end NestedColumns
