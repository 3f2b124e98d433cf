import NestedColumns.Double.Basic

/-!
# Shortest decimals

The decimal that stands for a double when it is written as text: of all
decimals that read back as the double, one with the fewest digits, and of
those the nearest.

The reals that round to a finite double form an interval, whose ends belong to
it exactly when the significand is even. A grid of decimals with a common last
place meets the interval only if one of the two grid points next to the double
does, so it is enough to test these two, on coarser grids first. Everything is
exact arithmetic on `Nat`.

## Main definitions

* `Tie`: Which of two equally near decimals is taken.
* `Decimal`: Digits and the power of ten of the last one.
* `Double.shortest`: The shortest decimal of a finite double.
-/

namespace NestedColumns

/-- What happens when two shortest decimals are equally near. -/
inductive Tie where
  /-- The one whose last digit is even. -/
  | even
  /-- The larger one. -/
  | up
  deriving DecidableEq, Repr

/-- The number `digits * 10 ^ exponent`. -/
structure Decimal where
  digits : Nat
  exponent : Int
  deriving DecidableEq, Repr, Inhabited

namespace Decimal

/-- Move zeros at the end of the digits into the exponent, up to a number of
    them. -/
def strip : Nat → Decimal → Decimal
  | 0, d => d
  | fuel + 1, d =>
    if d.digits % 10 = 0 ∧ d.digits ≠ 0 then strip fuel ⟨d.digits / 10, d.exponent + 1⟩ else d

/-- The digits as characters, most significant first. -/
def digitChars (d : Decimal) : List Char :=
  Nat.toDigits 10 d.digits

end Decimal

namespace Double

/-- A fraction's two parts multiplied out so that `value / unit` is exact: the
    ratio of `magnitude * 2 ^ twos` to `10 ^ tens`. -/
def gridRatio (magnitude : Nat) (twos tens : Int) : Nat × Nat :=
  (magnitude * 2 ^ twos.toNat * 10 ^ (-tens).toNat, 2 ^ (-twos).toNat * 10 ^ tens.toNat)

/-- The grid point of step `10 ^ exponent` that stands for the double, if one
    does. Magnitudes are counted in quarters of the last place, so that the
    ends of the interval are whole: half a place above, and half a place below
    unless the double is the least of its scale, where the places below are
    half as wide. -/
def onGrid? (tie : Tie) (d : Double) (exponent : Int) : Option Nat :=
  let m := d.significand
  let lowGap := if m = 2 ^ 52 ∧ d.scale ≠ -1074 then 1 else 2
  let (value, unit) := gridRatio (4 * m) (d.scale - 2) exponent
  let (low, _) := gridRatio (4 * m - lowGap) (d.scale - 2) exponent
  let (high, _) := gridRatio (4 * m + 2) (d.scale - 2) exponent
  let within (n : Nat) : Bool :=
    if m % 2 = 0 then decide (low ≤ n * unit ∧ n * unit ≤ high)
    else decide (low < n * unit ∧ n * unit < high)
  let below := value / unit
  let above := below + 1
  let rest := value % unit
  let preferAbove : Bool :=
    match tie with
    | .even => decide (unit < 2 * rest ∨ (2 * rest = unit ∧ below % 2 = 1))
    | .up => decide (unit ≤ 2 * rest)
  if within below ∧ below ≠ 0 ∧ ¬ (preferAbove ∧ within above) then some below
  else if within above then some above
  else none

/-- The first grid with a hit, from `exponent` downwards. -/
def firstGrid (tie : Tie) (d : Double) : Nat → Int → Decimal
  | 0, exponent => ⟨((onGrid? tie d exponent).getD 0), exponent⟩
  | fuel + 1, exponent =>
    match onGrid? tie d exponent with
    | some n => ⟨n, exponent⟩
    | none => firstGrid tie d fuel (exponent - 1)

/-- A decimal place at or above the first digit of the double, from its binary
    length and a bound of the logarithm of two. -/
def topExponent (d : Double) : Int :=
  ((d.significand.log2 : Int) + d.scale + 1) * 30103 / 100000 + 1

/-- The shortest decimal of a finite double other than zero, without zeros at
    its end. Seventeen digits always suffice, and the search starts at most
    two places above the first. -/
def shortest (tie : Tie) (d : Double) : Decimal :=
  (firstGrid tie d 20 d.topExponent).strip 20

end Double

end NestedColumns
