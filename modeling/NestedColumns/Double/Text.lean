import NestedColumns.Double.Decimal

/-!
# The text of a double

Two texts of a double are in use. A JSON text writes the digits plainly while
the point stays near them and with a power of ten otherwise, and always shows
that the number is not a whole number by a point or an exponent. A message
for a reader writes every finite number plainly.

## Main definitions

* `Double.jsonText`: The text in a JSON document, for finite doubles.
* `Double.plainText`: The text in a message.
-/

namespace NestedColumns

namespace Double

/-- The sign of a number in front of its magnitude. -/
def signed (d : Double) (magnitude : String) : String :=
  if d.isNegative then "-" ++ magnitude else magnitude

/-- Digits with a point after the first `point` of them, filled with zeros on
    either side. `whole` is what follows a whole number. -/
def positional (digits : List Char) (point : Int) (whole : String) : String :=
  if point ≤ 0 then
    "0." ++ String.ofList (List.replicate (-point).toNat '0' ++ digits)
  else if digits.length ≤ point.toNat then
    String.ofList (digits ++ List.replicate (point.toNat - digits.length) '0') ++ whole
  else
    String.ofList (digits.take point.toNat) ++ "." ++ String.ofList (digits.drop point.toNat)

/-- One digit before the point, the others after it, and the power of ten with
    its sign. A single digit has no point. -/
def scientific (digits : List Char) (point : Int) : String :=
  let mantissa :=
    match digits with
    | [] => "0"
    | [c] => String.ofList [c]
    | c :: rest => String.ofList (c :: '.' :: rest)
  let power := point - 1
  mantissa ++ "e" ++ (if power < 0 then "-" else "+") ++ toString power.natAbs

/-- The JSON text of a finite double. Magnitudes from `1e-5` up to but not
    including `1e16` are written plainly, with `.0` after a whole number; of two
    shortest decimals equally near the one with an even last digit is taken. -/
def jsonText (d : Double) : String :=
  if d.isZero then d.signed "0.0"
  else
    let s := d.shortest .even
    let digits := s.digitChars
    let point := s.exponent + digits.length
    d.signed (if -5 < point ∧ point ≤ 16 then positional digits point ".0"
      else scientific digits point)

/-- The text of a double in a message: always plain, a whole number without a
    point, of two shortest decimals equally near the larger. -/
def plainText (d : Double) : String :=
  if d.isNaN then "NaN"
  else if !d.isFinite then d.signed "inf"
  else if d.isZero then d.signed "0"
  else
    let s := d.shortest .up
    let digits := s.digitChars
    d.signed (positional digits (s.exponent + digits.length) "")

end Double

end NestedColumns
