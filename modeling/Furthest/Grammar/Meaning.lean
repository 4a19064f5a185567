import Furthest.Grammar.Build

/-!
# The parsers that descriptions stand for

`Grammar.parserBy` is the parser of a description, given how to enter the parsers that are found or built
while it runs: what a cell holds, what a declaration is bound to, what a rule or a function builds. The knot is
tied by `Grammar.parserWithin`, which enters them with a smaller limit of nesting.
-/

namespace Furthest.Grammar

variable {a : Alphabet}

/-- A parser of values from items of an alphabet, over the store of that alphabet. -/
abbrev Meaning (a : Alphabet) : Type := Parser (Store a) a.Carrier Value

/-- The parser that a run finds or builds. -/
def entering (enter : Grammar a → Meaning a) (found : Run (Store a) (Grammar a)) : Meaning a :=
  fun xs i => do enter (← found) xs i

/-- The repetition of checked bounds. Bounds that fail the check give up. -/
def bounded (bounds : Except Fault Bounds) (repeating : Bounds → Parser (Store a) a.Carrier (List Value)) :
    Meaning a :=
  match bounds with
  | .ok b => (repeating b).map .list
  | .error cause => Parser.giveUp cause

mutual

/-- The parser of a description. -/
def parserBy (enter : Grammar a → Meaning a) : Grammar a → Meaning a
  | leaf l => l.parser
  | andThen p q => (parserBy enter p).andThen (parserBy enter q)
  | skip p q => (parserBy enter p).skip (parserBy enter q)
  | tuple ps => (Parser.tuple (parsersBy enter ps)).map .tuple
  | sequence ps => (Parser.sequence (parsersBy enter ps)).map .list
  | alt ps => Parser.alt (parsersBy enter ps)
  | times p bounds => bounded bounds (parserBy enter p).times
  | sepBy p sep bounds => bounded bounds ((parserBy enter p).sepBy (parserBy enter sep))
  | manyUntil p stop bounds => bounded bounds ((parserBy enter p).manyUntil (parserBy enter stop))
  | map p f => (parserBy enter p).tryMap f
  | bind p f => (parserBy enter p).bind fun v => entering enter (f v).build
  | mark p => (parserBy enter p).mark.map .ofMarked
  | desc p label => (parserBy enter p).desc label
  | shouldFail p label => ((parserBy enter p).shouldFail label).map fun _ => .unit
  | peek p => (parserBy enter p).peek
  | traced p name => (parserBy enter p).traced name
  | lazy id p => entering enter (lazy id p).build
  | rule name => entering enter (rule name).build
  | call name => entering enter do
    build (← Run.ofExcept (Store.resolve (← Run.getStore).rules name))
  | ref name => entering enter (ref name).build
  | forward name => entering enter (forward name).build
  | cell address => entering enter (force address)
  | declared address => entering enter (definition address)
  | raise cause => Parser.giveUp cause

/-- The parsers of a list of descriptions. -/
def parsersBy (enter : Grammar a → Meaning a) : List (Grammar a) → List (Meaning a)
  | [] => []
  | p :: ps => parserBy enter p :: parsersBy enter ps

end

/-- The parser of a description in which parsers are entered at most `limit` deep. -/
def parserWithin : (limit : Nat) → Grammar a → Meaning a
  | 0, _ => Parser.giveUp .exhausted
  | limit + 1, p => parserBy (parserWithin limit) p

/-- How deep parsers may be entered: deeper than any invocation that ends. -/
def nestingLimit : Nat := UInt64.size

/-- The parser of a description. -/
def parser (p : Grammar a) : Meaning a := parserWithin nestingLimit p

end Furthest.Grammar
