import Furthest.Calculator.Arithmetic
import Furthest.Parser.Text

/-!
# The calculator's grammar

Each rule is a parser of its value. Braces stand for any number of repetitions, brackets for an optional
part, and blanks may surround every token:

    expression = term {("+" | "-") term}.
    term = factor {("*" | "/") factor}.
    factor = ["-"] power.
    power = primary ["^" factor].
    primary = number | "(" expression ")".
    number = digit {digit} ["." {digit}].

A factor contains factors only after a byte of its own, `^` or a parenthesis, so the bytes that are left
bound how deep factors nest: `factorWithin` recurses on that depth, and `factor` takes it from the input.
-/

namespace Furthest.Calculator

open Furthest.Parser

variable {σ ν α : Type}

/-- An operator out of some bytes, followed by an operand. -/
def opPair (operators : Bytes) (operand : Parser σ UInt8 α) : Parser σ UInt8 (UInt8 × α) :=
  (token (oneOf operators)).pair operand

/-- The numeral of a number: digits, and a point with more digits, or none, after it. -/
def numeral : Parser σ UInt8 Bytes :=
  let fraction := (combine₂ (· ++ ·) (str (ascii ".")) digit.many).optional.map (·.getD [])
  combine₂ (· ++ ·) digit.oneOrMore fraction

/-- A number. -/
def number (A : Arithmetic ν) : Parser σ UInt8 ν :=
  ((numeral.map A.ofNumeral).desc (ascii "a number")).traced (ascii "number")

section Factor

variable (A : Arithmetic ν) (factor : Parser σ UInt8 ν)

/-- Operands with operators between them, evaluated from the left. -/
def chainOf (operators : Bytes) (operand : Parser σ UInt8 ν) : Parser σ UInt8 ν :=
  combine₂ A.chain operand (opPair operators operand).many

/-- A term of given factors. -/
def termOf : Parser σ UInt8 ν := (chainOf A (ascii "*/") factor).traced (ascii "term")

/-- An expression over given factors. -/
def expressionOf : Parser σ UInt8 ν :=
  (chainOf A (ascii "+-") (termOf A factor)).traced (ascii "expression")

/-- A primary over given factors. -/
def primaryOf : Parser σ UInt8 ν :=
  ((token (number A)).orElse
    (((token (symbol 40)).andThen (expressionOf A factor)).skip (token (symbol 41)))).traced
      (ascii "primary")

/-- A power over given factors. -/
def powerOf : Parser σ UInt8 ν :=
  (combine₂ A.raised (primaryOf A factor) ((token (symbol 94)).andThen factor).optional).traced
    (ascii "power")

/-- A factor over the factors inside it. -/
def factorOf : Parser σ UInt8 ν :=
  (combine₂ A.signed (token (symbol 45)).optional (powerOf A factor)).traced (ascii "factor")

end Factor

/-- A factor inside which factors nest less than `depth` times. -/
def factorWithin (A : Arithmetic ν) : (depth : Nat) → Parser σ UInt8 ν
  | 0 => giveUp .exhausted
  | depth + 1 => factorOf A (factorWithin A depth)

/-- A factor. Each factor inside it starts at a later byte. -/
def factor (A : Arithmetic ν) : Parser σ UInt8 ν := fun xs i =>
  factorWithin A (xs.length - i + 1) xs i

/-- The rules of the grammar, and the whole grammar with the blanks around it. -/
inductive Rule where
  | number
  | expression
  | term
  | factor
  | power
  | primary
  | calculator
deriving DecidableEq, Repr

/-- The parser of a rule. -/
def Rule.parser (A : Arithmetic ν) : Rule → Parser σ UInt8 ν
  | number => Calculator.number A
  | expression => expressionOf A (Calculator.factor A)
  | term => termOf A (Calculator.factor A)
  | factor => Calculator.factor A
  | power => powerOf A (Calculator.factor A)
  | primary => primaryOf A (Calculator.factor A)
  | calculator => token (expressionOf A (Calculator.factor A))

end Furthest.Calculator

namespace Furthest

/-- The calculator: an expression with the blanks around it. -/
def calculator {σ ν : Type} (A : Arithmetic ν) : Parser σ UInt8 ν := Calculator.Rule.calculator.parser A

end Furthest
