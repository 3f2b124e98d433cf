import NestedColumns.Numerals

/-!
# Double-precision numbers

The number a column keeps when it is not a whole number: an IEEE 754 binary64
value, held as its 64 bits.

Bits are the right carrier for a store. A page writes them and reads them
back, so a stored number returns unchanged whatever it is, a NaN with a
payload included, and equality of values is equality of bits and decidable.
Arithmetic is never needed. What is needed is the exact value of a finite
number, as a whole significand times a power of two, and the nearest double to
an exact ratio; both are stated over `Nat` and `Int`, where proofs can reach
them.

## Main definitions

* `Double`: Sixty-four bits.
* `Double.significand`, `Double.scale`: The magnitude of a finite double is
  `significand * 2 ^ scale`.
* `Double.nearest`: The double nearest to a ratio, ties to the even significand.
* `Double.sameNumber`: Equality of finite doubles as numbers.
-/

namespace NestedColumns

/-- An IEEE 754 binary64 value, by its bits: one sign bit, eleven exponent
    bits, fifty-two fraction bits. -/
structure Double where
  bits : UInt64
  deriving DecidableEq, Repr, Inhabited

namespace Double

/-- The sign bit is set. Zeros and NaNs have one too. -/
def isNegative (d : Double) : Bool :=
  decide (2 ^ 63 ≤ d.bits.toNat)

/-- The eleven exponent bits, biased by 1023. -/
def exponentField (d : Double) : Nat :=
  d.bits.toNat / 2 ^ 52 % 2 ^ 11

/-- The fifty-two fraction bits. -/
def fractionField (d : Double) : Nat :=
  d.bits.toNat % 2 ^ 52

/-- Neither an infinity nor a NaN: those fill the exponent field with ones. -/
def isFinite (d : Double) : Bool :=
  decide (d.exponentField ≠ 2047)

/-- A NaN fills the exponent field and has a fraction. -/
def isNaN (d : Double) : Bool :=
  decide (d.exponentField = 2047 ∧ d.fractionField ≠ 0)

/-- The whole significand of a finite double. Normal numbers have a leading
    one that is not stored; subnormal numbers do not. -/
def significand (d : Double) : Nat :=
  if d.exponentField = 0 then d.fractionField else d.fractionField + 2 ^ 52

/-- The power of two that the significand is multiplied by. -/
def scale (d : Double) : Int :=
  if d.exponentField = 0 then -1074 else (d.exponentField : Int) - 1075

/-- Either of the two zeros. -/
def isZero (d : Double) : Bool :=
  decide (d.exponentField = 0 ∧ d.fractionField = 0)

/-- The double with a given sign and magnitude bits. -/
def ofMagnitude (negative : Bool) (magnitude : Nat) : Double :=
  ⟨UInt64.ofNat ((if negative then 2 ^ 63 else 0) + magnitude)⟩

/-- The zero of a sign. -/
def zero (negative : Bool) : Double :=
  ofMagnitude negative 0

/-- The infinity of a sign: the exponent field full, the fraction empty. -/
def infinity (negative : Bool) : Double :=
  ofMagnitude negative (2047 * 2 ^ 52)

/-- A quotient rounded to the nearest whole number, a tie to the even one. -/
def roundQuotient (num den : Nat) : Nat :=
  let quotient := num / den
  let rest := num % den
  if den < 2 * rest ∨ (2 * rest = den ∧ quotient % 2 = 1) then quotient + 1 else quotient

/-- The power of two on whose multiples the ratio `num / den` is rounded: the
    one that leaves a significand of 53 bits, but never below the least
    subnormal. -/
def roundingScale (num den : Nat) : Int :=
  let estimate : Int := (num.log2 : Int) - (den.log2 : Int) - 52
  let reached : Bool :=
    if 0 ≤ estimate then decide (den * 2 ^ (estimate.toNat + 52) ≤ num)
    else decide (den * 2 ^ 52 ≤ num * 2 ^ (-estimate).toNat)
  max (-1074) (if reached then estimate else estimate - 1)

/-- The double nearest to `num / den`, ties to the even significand.

    With the significand rounded at scale `q`, the magnitude bits are
    `(q + 1074) * 2 ^ 52 + significand`: the hidden bit of a normal number adds
    one to the exponent field, and a significand rounded up to `2 ^ 53` carries
    into it by itself. Anything that reaches the full exponent field is an
    infinity. -/
def nearest (negative : Bool) (num den : Nat) : Double :=
  if num = 0 then zero negative
  else
    let q := roundingScale num den
    let m :=
      if 0 ≤ q then roundQuotient num (den * 2 ^ q.toNat)
      else roundQuotient (num * 2 ^ (-q).toNat) den
    let magnitude := (q + 1074).toNat * 2 ^ 52 + m
    if 2047 * 2 ^ 52 ≤ magnitude then infinity negative else ofMagnitude negative magnitude

/-- The double nearest to a whole number. -/
def ofInt (n : Int) : Double :=
  nearest (decide (n < 0)) n.natAbs 1

/-- The double nearest to `digits * 10 ^ exponent`. A magnitude that is
    certainly beyond every double, or below half of the least one, is settled
    without computing the power. -/
def ofDecimal (negative : Bool) (digits : Nat) (exponent : Int) : Double :=
  if digits = 0 then zero negative
  else if 310 < exponent then infinity negative
  else if exponent + ((Nat.log2 digits : Nat) : Int) < -1100 then zero negative
  else if 0 ≤ exponent then nearest negative (digits * 10 ^ exponent.toNat) 1
  else nearest negative digits (10 ^ (-exponent).toNat)

/-- Equality as numbers: the two zeros are one number, a NaN is none. -/
def sameNumber (a b : Double) : Bool :=
  (a == b && !a.isNaN) || (a.isZero && b.isZero)

end Double

end NestedColumns
