import Furthest.Bytes
import Furthest.Decimal.Binary

/-!
# Numbers by significant digits

A number is rounded to a count of significant decimal digits and written without trailing zeros: positional
while its decimal exponent is small, and with an exponent otherwise. A `Style` holds the choices.
-/

namespace Furthest.Decimal

/-- The choices of a way to write numbers. -/
structure Style where
  /-- How many significant digits are kept. -/
  digits : Nat
  /-- Numbers with a smaller decimal exponent are written with an exponent, as are those whose exponent
  reaches `digits`. -/
  leastPositional : Int
  /-- The least count of digits of an exponent. -/
  exponentDigits : Nat

/-- The digits of a numeral, padded with leading zeros to a count. -/
def padded (width n : Nat) : Bytes :=
  let text := decimal n
  List.replicate (width - text.length) 48 ++ text

/-- The exponent `k` of a positive quotient with `10 ^ k ≤ num / den < 10 ^ (k + 1)`. -/
def decimalExponent (num den : Nat) : Int :=
  if den ≤ num then (decimal (num / den)).length - 1
  else
    let zeros := (decimal (den / num)).length - 1
    if den ≤ num * powerOfTen zeros then -zeros else -(zeros + 1)

/-- The digits of a positive quotient as one number of exactly `count` digits, and its decimal exponent. -/
def significant (count num den : Nat) : Nat × Int :=
  let k := decimalExponent num den
  let shift : Int := count - 1 - k
  let digits :=
    if 0 ≤ shift then roundEven (num * powerOfTen shift.toNat) den
    else roundEven num (den * powerOfTen (-shift).toNat)
  if digits = powerOfTen count then (powerOfTen (count - 1), k + 1) else (digits, k)

/-- A text without the zeros at its end. -/
def dropTrailingZeros (text : Bytes) : Bytes := (text.reverse.dropWhile (· == 48)).reverse

/-- Whole digits and, after a point, those of the fraction that are not trailing zeros. -/
def withFraction (whole fraction : Bytes) : Bytes :=
  match dropTrailingZeros fraction with
  | [] => whole
  | fraction => whole ++ ascii "." ++ fraction

/-- A positive quotient, written in a style. -/
def Style.renderPositive (style : Style) (num den : Nat) : Bytes :=
  let (digits, k) := significant style.digits num den
  let text := decimal digits
  if style.leastPositional ≤ k ∧ k < style.digits then
    if 0 ≤ k then withFraction (text.take (k.toNat + 1)) (text.drop (k.toNat + 1))
    else withFraction (ascii "0") (List.replicate ((-k).toNat - 1) 48 ++ text)
  else
    withFraction (text.take 1) (text.drop 1) ++ ascii "e" ++ ascii (if k < 0 then "-" else "+") ++
      padded style.exponentDigits k.natAbs

/-- A number, written in a style. Zero keeps its sign. -/
def Style.render (style : Style) (x : Binary) : Bytes :=
  let sign (negative : Bool) : Bytes := if negative then ascii "-" else []
  match x with
  | .notANumber negative => sign negative ++ ascii "nan"
  | .infinite negative => sign negative ++ ascii "inf"
  | .finite negative 0 _ => sign negative ++ ascii "0"
  | .finite negative m q =>
    sign negative ++
      if 0 ≤ q then style.renderPositive (m <<< q.toNat) 1
      else style.renderPositive m (1 <<< (-q).toNat)

end Furthest.Decimal
