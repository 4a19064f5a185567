import Furthest.Calculator.Rules
import Furthest.Grammar.Alphabet

/-!
# The parsers that descriptions start from

A leaf describes a parser that is not combined of described ones. `Leaf.parser` is that parser, with its
value as a `Value`.
-/

namespace Furthest

/-- A described parser without described parts. -/
inductive Leaf : Alphabet → Type where
  /-- Succeeds with a value, consuming nothing. -/
  | succeed {a : Alphabet} (v : Value) : Leaf a
  /-- Fails, expecting a label. -/
  | fail {a : Alphabet} (label : Bytes) : Leaf a
  /-- The cursor. -/
  | position {a : Alphabet} : Leaf a
  /-- The end of the input. -/
  | eof {a : Alphabet} : Leaf a
  /-- One item of a class. -/
  | satisfy {a : Alphabet} (c : ItemClass a.Carrier) : Leaf a
  /-- A literal. -/
  | str (literal : Bytes) : Leaf .bytes
  /-- The longest of some literals. -/
  | strFrom (literals : List Bytes) : Leaf .bytes
  /-- A letter of either case. -/
  | letter : Leaf .bytes
  /-- Blanks, at least one. -/
  | whitespace : Leaf .bytes
  /-- The line and the column of the cursor. -/
  | lineColumn : Leaf .bytes
  /-- A rule of the calculator. -/
  | calculator (rule : Calculator.Rule) : Leaf .bytes
  /-- An operator out of some bytes, followed by an operand that a rule of the calculator describes. -/
  | opPair (operators : Bytes) (rule : Calculator.Rule) : Leaf .bytes

namespace Leaf

variable {σ : Type}

/-- The parser that a leaf describes. -/
def parser : {a : Alphabet} → Leaf a → Parser σ a.Carrier Value
  | _, succeed v => Parser.succeed v
  | _, fail label => Parser.fail label
  | _, position => Parser.position.map fun i => .int i
  | _, eof => Parser.eof.map fun _ => .unit
  | a, satisfy c => (Parser.satisfy c).map a.toValue
  | .bytes, str literal => (Parser.str literal).map .string
  | .bytes, strFrom literals => (Parser.strFrom literals).map .string
  | .bytes, letter => Parser.letter.map .char
  | .bytes, whitespace => Parser.whitespace.map .string
  | .bytes, lineColumn => Parser.lineColumn.map .place
  | .bytes, calculator rule => (rule.parser .binary).map .real
  | .bytes, opPair operators rule =>
    (Calculator.opPair operators (rule.parser .binary)).map fun (c, x) => .tuple [.char c, .real x]

end Leaf

end Furthest
