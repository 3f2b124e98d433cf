import NestedColumns.Numerals

/-!
# Numbers as bytes

Files hold numbers in fields of a fixed width, with the least significant byte
first in pages and the most significant byte first in indexes. A number too
large for its field keeps its lowest bytes.

## Main definitions

* `Bytes.little`, `Bytes.big`: A number as so many bytes, either way round.
* `Bytes.ofLittle`, `Bytes.ofBig`: The number that bytes spell.
* `Bytes.split?`: The first bytes, if there are so many.

## Theorems

* `Bytes.ofLittle_little`, `Bytes.ofBig_big`: A number that fits its field is
  read back.
-/

namespace NestedColumns

namespace Bytes

/-- A number as `width` bytes, least significant first. -/
def little : Nat → Nat → List UInt8
  | 0, _ => []
  | width + 1, n => UInt8.ofNat (n % 256) :: little width (n / 256)

/-- The number that bytes spell, least significant first. -/
def ofLittle : List UInt8 → Nat
  | [] => 0
  | b :: rest => b.toNat + 256 * ofLittle rest

/-- A number as `width` bytes, most significant first. -/
def big (width n : Nat) : List UInt8 :=
  (little width n).reverse

/-- The number that bytes spell, most significant first. -/
def ofBig (bytes : List UInt8) : Nat :=
  ofLittle bytes.reverse

/-- The first `n` bytes and the rest, if there are so many. -/
def split? (n : Nat) (bytes : List UInt8) : Option (List UInt8 × List UInt8) :=
  if n ≤ bytes.length then some (bytes.take n, bytes.drop n) else none

theorem length_little (width n : Nat) : (little width n).length = width := by
  induction width generalizing n with
  | zero => rfl
  | succ width ih => simp only [little, List.length_cons, ih]

theorem length_big (width n : Nat) : (big width n).length = width := by
  simp only [big, List.length_reverse, length_little]

theorem ofLittle_little (width n : Nat) : ofLittle (little width n) = n % 256 ^ width := by
  induction width generalizing n with
  | zero => simp only [little, ofLittle, Nat.pow_zero, Nat.mod_one]
  | succ width ih =>
    have hb : (UInt8.ofNat (n % 256)).toNat = n % 256 := by
      rw [UInt8.toNat_ofNat', Nat.mod_eq_of_lt (Nat.mod_lt _ (by decide))]
    rw [little, ofLittle, ih, hb, Nat.pow_succ, Nat.mul_comm (256 ^ width) 256, Nat.mod_mul]

theorem ofBig_big (width n : Nat) : ofBig (big width n) = n % 256 ^ width := by
  rw [ofBig, big, List.reverse_reverse, ofLittle_little]

end Bytes

end NestedColumns
