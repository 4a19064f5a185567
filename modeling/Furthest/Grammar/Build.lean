import Furthest.Grammar.Store

/-!
# Building described parsers

Building checks the bounds of every repetition, from the inside out and from left to right, resolves the names
of definitions and declarations, and gives each parser that is built on first use a cell of its own. What a
cell or a function will build is left as it is described.
-/

namespace Furthest.Grammar

variable {a : Alphabet}

/-- A new cell for a description. -/
def allocate (id : Option Bytes) (body : Grammar a) : Run (Store a) (Grammar a) := do
  let address := (← Run.getStore).cells.size
  Run.modifyStore (·.addCell (.new id body))
  return .cell address

mutual

/-- Builds a described parser. -/
def build : Grammar a → Run (Store a) (Grammar a)
  | leaf l => return leaf l
  | andThen p q => return andThen (← build p) (← build q)
  | skip p q => return skip (← build p) (← build q)
  | tuple ps => return tuple (← buildAll ps)
  | sequence ps => return sequence (← buildAll ps)
  | alt ps => return alt (← buildAll ps)
  | times p bounds => return times (← build p) (.ok (← Run.ofExcept bounds))
  | sepBy p sep bounds => return sepBy (← build p) (← build sep) (.ok (← Run.ofExcept bounds))
  | manyUntil p stop bounds => return manyUntil (← build p) (← build stop) (.ok (← Run.ofExcept bounds))
  | map p f => return map (← build p) f
  | bind p f => return bind (← build p) f
  | mark p => return mark (← build p)
  | desc p label => return desc (← build p) label
  | shouldFail p label => return shouldFail (← build p) label
  | peek p => return peek (← build p)
  | traced p name => return traced (← build p) name
  | lazy id p => allocate id p
  | rule name => do allocate none (← Run.ofExcept (Store.resolve (← Run.getStore).rules name))
  | call name => return call name
  | ref name => do Run.ofExcept (Store.resolve (← Run.getStore).definitions name)
  | forward name => do return declared (← Run.ofExcept (Store.resolve (← Run.getStore).names name))
  | cell address => return cell address
  | declared address => return declared address
  | raise cause => Run.giveUp cause

/-- Builds all parts of a description, from left to right. -/
def buildAll : List (Grammar a) → Run (Store a) (List (Grammar a))
  | [] => return []
  | p :: ps => return (← build p) :: (← buildAll ps)

end

/-- What a cell was built to. It is built now if it was not built before; if that is given up, the cell stays
unbuilt. -/
def force (address : Nat) : Run (Store a) (Grammar a) := do
  match (← Run.getStore).cells[address]? with
  | none => Run.giveUp .unknownName
  | some c =>
    match c.built with
    | some p => return p
    | none =>
      Run.modifyStore (·.modifyCell address .start)
      let p ← build c.body
      Run.modifyStore (·.modifyCell address (·.finish p))
      return p

/-- What a declaration is bound to. -/
def definition (address : Nat) : Run (Store a) (Grammar a) := do
  match (← Run.getStore).declarations[address]? with
  | none => Run.giveUp .unknownName
  | some .unbound => Run.giveUp .declarationUnbound
  | some .gone => Run.giveUp .declarationGone
  | some (.bound p) => return p

end Furthest.Grammar
