import Furthest.Grammar.Meaning
import Furthest.Parser.Input

/-!
# Sessions

A session keeps definitions, declarations and built cells from one step to the next. Each step is a run over
the store of the session; a step that is given up leaves what it has changed until then.
-/

namespace Furthest.Session

variable {a : Alphabet}

/-- The environment at the start of a session: some rules, and a log of a level. -/
def initial (rules : List (Bytes × Grammar a)) (level : Level) : Env (Store a) :=
  ⟨.ofLevel level, .ofRules rules⟩

/-- The environment with its log emptied. -/
def clearLog (env : Env (Store a)) : Env (Store a) := { env with log := .ofLevel env.log.level }

/-- Builds a parser and invokes it on an input at a cursor. -/
def invoke (p : Grammar a) (xs : List a.Carrier) (i : Nat) : Run (Store a) (Result Value) := do
  (← p.build).parser xs i

/-- Builds a parser and parses an input with it. -/
def parse (p : Grammar a) (xs : List a.Carrier) : Run (Store a) (Except ParseError Value) := do
  (← p.build).parser.parse xs

/-- Builds a parser and parses a first part of an input with it. -/
def parsePartial (p : Grammar a) (xs : List a.Carrier) :
    Run (Store a) (Except ParseError (Value × List a.Carrier)) := do
  (← p.build).parser.parsePartial xs

/-- Builds a parser and gives it a name. -/
def define (name : Bytes) (p : Grammar a) : Run (Store a) Unit := do
  let p ← p.build
  Run.modifyStore (·.define name p)

/-- Declares a parser that is given later. -/
def declare (name : Bytes) : Run (Store a) Unit := Run.modifyStore (·.declare name)

/-- Builds a parser and binds the declaration of a name to it. -/
def become (name : Bytes) (p : Grammar a) : Run (Store a) Unit := do
  let p ← p.build
  let address ← Run.ofExcept (Store.resolve (← Run.getStore).names name)
  Run.modifyStore (·.setDeclaration address (.bound p))

/-- Ends the declaration of a name. -/
def drop (name : Bytes) : Run (Store a) Unit := Run.modifyStore (·.drop name)

/-- How often building a parser of an id was started. -/
def startsOf (id : Bytes) : Run (Store a) Nat := do return (← Run.getStore).startsOf id

end Furthest.Session
