import Furthest.Decimal.Rounding

/-!
# Binary floating-point numbers of 64 bits

A finite number is `m · 2 ^ q` with a sign. `nearest` gives the number nearest to a quotient of naturals,
ties to the even significand, and infinity where the quotient is too large; `Binary.ofBits` reads a number
off its bits.
-/

namespace Furthest.Decimal

/-- A binary floating-point number. -/
inductive Binary where
  /-- The number `m · 2 ^ q`, negative if the sign is set. -/
  | finite (negative : Bool) (m : Nat) (q : Int)
  | infinite (negative : Bool)
  | notANumber (negative : Bool)
deriving DecidableEq, Repr

namespace Binary

/-- The weight of the bit of the sign. -/
def signPlace : Nat := 1 <<< 63

/-- The weight of the lowest bit of the exponent: above the bits of the significand. -/
def exponentPlace : Nat := 1 <<< 52

/-- The exponent of infinity and of what is not a number. -/
def topExponent : Nat := 2047

/-- The least exponent of a significand. -/
def leastExponent : Int := -1074

/-- Reads a number off its 64 bits: sign, eleven bits of exponent, 52 bits of significand. -/
def ofBits (bits : UInt64) : Binary :=
  let n := bits.toNat
  let negative := signPlace ≤ n
  let exponent : Nat := n % signPlace / exponentPlace
  let fraction : Nat := n % exponentPlace
  if exponent = topExponent then if fraction = 0 then infinite negative else notANumber negative
  else if exponent = 0 then finite negative fraction leastExponent
  else finite negative (exponentPlace + fraction) (leastExponent + exponent - 1)

end Binary

/-- The numerator and the denominator of `(num / den) / 2 ^ q`. -/
def scaleDown (num den : Nat) (q : Int) : Nat × Nat :=
  if 0 ≤ q then (num, den <<< q.toNat) else (num <<< (-q).toNat, den)

/-- The exponent `k` of a positive quotient with `2 ^ k ≤ num / den < 2 ^ (k + 1)`. -/
def binaryExponent (num den : Nat) : Int :=
  let guess : Int := num.log2 - den.log2
  let (n, d) := scaleDown num den guess
  if d ≤ n then guess else guess - 1

/-- The bits of the non-negative number nearest to `num / den`. The significand may round up to a power of
two, which carries into the exponent. -/
def nearest (num den : Nat) : UInt64 :=
  if num = 0 then 0
  else
    let q := max (binaryExponent num den - 52) Binary.leastExponent
    let (n, d) := scaleDown num den q
    let bits := (q - Binary.leastExponent).toNat * Binary.exponentPlace + roundEven n d
    UInt64.ofNat (min bits (Binary.topExponent * Binary.exponentPlace))

end Furthest.Decimal
