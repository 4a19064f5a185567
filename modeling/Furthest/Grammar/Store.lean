import Furthest.Grammar.Basic

/-!
# The store of deferred parsers

The store holds the rules and definitions by name, the cells of parsers that are built on first use, and the
declarations. A name stands for what it was last given to; a declaration lives on at its address until it
ends, whatever its name stands for by then.
-/

namespace Furthest

/-- A parser that is built on first use: its description, how often building it was started and, once it is
built, what was built. -/
structure Cell (a : Alphabet) where
  id : Option Bytes
  body : Grammar a
  starts : Nat
  built : Option (Grammar a)

namespace Cell

variable {a : Alphabet}

/-- A cell whose building was never started. -/
def new (id : Option Bytes) (body : Grammar a) : Cell a := ⟨id, body, 0, none⟩

/-- The cell with one more start of building. -/
def start (c : Cell a) : Cell a := { c with starts := c.starts + 1 }

/-- The cell with what was built. -/
def finish (c : Cell a) (p : Grammar a) : Cell a := { c with built := some p }

end Cell

/-- A placeholder for a parser that is given later. -/
inductive Declaration (a : Alphabet) where
  | unbound
  | bound (p : Grammar a)
  | gone

/-- The deferred parsers of a session. -/
structure Store (a : Alphabet) where
  /-- The rules, by name. -/
  rules : List (Bytes × Grammar a)
  /-- The definitions, already built, by name. -/
  definitions : List (Bytes × Grammar a)
  /-- The cells, by address. -/
  cells : Array (Cell a)
  /-- The addresses of the declarations, by name. -/
  names : List (Bytes × Nat)
  /-- The declarations, by address. -/
  declarations : Array (Declaration a)

namespace Store

variable {a : Alphabet}

/-- What a name stands for; an unknown name is a fault. -/
def resolve {α : Type} (names : List (Bytes × α)) (name : Bytes) : Except Fault α :=
  match names.lookup name with
  | some x => .ok x
  | none => .error .unknownName

/-- The store of some rules, with nothing built. -/
def ofRules (rules : List (Bytes × Grammar a)) : Store a := ⟨rules, [], #[], [], #[]⟩

/-- How often building a cell of an id was started, over all cells of that id. -/
def startsOf (s : Store a) (id : Bytes) : Nat :=
  s.cells.toList.foldr (fun c n => if c.id = some id then c.starts + n else n) 0

/-- Adds a cell; its address is the count of cells before it. -/
def addCell (s : Store a) (c : Cell a) : Store a := { s with cells := s.cells.push c }

/-- Changes the cell at an address. -/
def modifyCell (s : Store a) (address : Nat) (f : Cell a → Cell a) : Store a :=
  { s with cells := s.cells.modify address f }

/-- Gives a name to a built definition, in place of an older one. -/
def define (s : Store a) (name : Bytes) (p : Grammar a) : Store a :=
  { s with definitions := (name, p) :: s.definitions }

/-- Sets the declaration at an address. -/
def setDeclaration (s : Store a) (address : Nat) (d : Declaration a) : Store a :=
  { s with declarations := s.declarations.setIfInBounds address d }

/-- Ends the declaration of a name, if there is one, and frees the name. -/
def drop (s : Store a) (name : Bytes) : Store a :=
  match s.names.lookup name with
  | some address =>
    { s.setDeclaration address .gone with names := s.names.filter (·.1 ≠ name) }
  | none => s

/-- Gives a name to a new, unbound declaration. An older one of that name ends. -/
def declare (s : Store a) (name : Bytes) : Store a :=
  let s := s.drop name
  { s with
    names := (name, s.declarations.size) :: s.names
    declarations := s.declarations.push .unbound }

end Store

end Furthest
