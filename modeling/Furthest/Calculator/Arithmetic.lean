import Furthest.Bytes
import Furthest.Decimal.Significant

/-!
# The arithmetic of the calculator

The calculator computes with numbers of any type that has the operations of `Arithmetic`. `Arithmetic.binary`
computes with floating-point numbers of 64 bits.
-/

namespace Furthest

/-- Numbers that expressions can be evaluated to. -/
structure Arithmetic (ν : Type) where
  /-- The number of a numeral: digits, or digits with a point after the first of them. -/
  ofNumeral : Bytes → ν
  add : ν → ν → ν
  sub : ν → ν → ν
  mul : ν → ν → ν
  div : ν → ν → ν
  neg : ν → ν
  pow : ν → ν → ν

namespace Arithmetic

variable {ν : Type}

/-- The operation of an operator. A byte that is none keeps the left operand. -/
def apply (A : Arithmetic ν) (operator : UInt8) (x y : ν) : ν :=
  match operator with
  | 43 => A.add x y
  | 45 => A.sub x y
  | 42 => A.mul x y
  | 47 => A.div x y
  | _ => x

/-- A first operand and the operators and operands after it, from the left. -/
def chain (A : Arithmetic ν) (first : ν) (rest : List (UInt8 × ν)) : ν :=
  rest.foldl (fun x (operator, y) => A.apply operator x y) first

/-- A number, negated if there is a sign. -/
def signed (A : Arithmetic ν) (sign : Option UInt8) (x : ν) : ν :=
  if sign.isSome then A.neg x else x

/-- A base, raised to an exponent if there is one. -/
def raised (A : Arithmetic ν) (base : ν) (exponent : Option ν) : ν :=
  match exponent with
  | some y => A.pow base y
  | none => base

end Arithmetic

namespace Decimal

/-- The number that a row of digits stands for. -/
def ofDigits (digits : Bytes) : Nat := digits.foldl (fun n d => 10 * n + (d.toNat - 48)) 0

/-- The floating-point number nearest to a numeral. -/
def readBinary (numeral : Bytes) : UInt64 :=
  let whole := numeral.takeWhile (· != 46)
  let fraction := (numeral.dropWhile (· != 46)).drop 1
  nearest (ofDigits (whole ++ fraction)) (powerOfTen fraction.length)

end Decimal

/-- Floating-point numbers of 64 bits. A numeral is read as the nearest of them. -/
def Arithmetic.binary : Arithmetic Float where
  ofNumeral numeral := Float.ofBits (Decimal.readBinary numeral)
  add := (· + ·)
  sub := (· - ·)
  mul := (· * ·)
  div := (· / ·)
  neg := (- ·)
  pow := Float.pow

/-- Numbers are shown with six significant digits, positional from a decimal exponent of -4 on. -/
def Decimal.shown : Decimal.Style := ⟨6, -4, 2⟩

end Furthest
