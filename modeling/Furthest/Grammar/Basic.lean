import Furthest.Grammar.Leaf

/-!
# Descriptions of parsers

A `Grammar` describes a parser of values. Its deferred parts name parsers that are built later or stand
elsewhere: `lazy` and `rule` are built on first use, `call` on every use, `ref` stands for a definition and
`forward` for a declaration. Building replaces them by the address of a cell or of a declaration, or by what
they stand for. Bounds are described as they were given, and bad ones are reported when the parser is built.
-/

namespace Furthest

/-- A description of a parser of values from items of an alphabet. -/
inductive Grammar (a : Alphabet) where
  | leaf (l : Leaf a)
  | andThen (p q : Grammar a)
  | skip (p q : Grammar a)
  /-- The values of all parts, as a tuple. -/
  | tuple (ps : List (Grammar a))
  /-- The values of all parts, as a list. -/
  | sequence (ps : List (Grammar a))
  | alt (ps : List (Grammar a))
  | times (p : Grammar a) (bounds : Except Fault Bounds)
  | sepBy (p sep : Grammar a) (bounds : Except Fault Bounds)
  | manyUntil (p stop : Grammar a) (bounds : Except Fault Bounds)
  | map (p : Grammar a) (f : Value → Except Fault Value)
  | bind (p : Grammar a) (f : Value → Grammar a)
  | mark (p : Grammar a)
  | desc (p : Grammar a) (label : Bytes)
  | shouldFail (p : Grammar a) (label : Bytes)
  | peek (p : Grammar a)
  | traced (p : Grammar a) (name : Bytes)
  /-- Built on first use. The use of an id counts as one start of building. -/
  | lazy (id : Option Bytes) (p : Grammar a)
  /-- The rule of a name, built on first use. -/
  | rule (name : Bytes)
  /-- The rule of a name, built on every use. -/
  | call (name : Bytes)
  /-- The definition of a name, as it is when this is built. -/
  | ref (name : Bytes)
  /-- The declaration that has a name when this is built. -/
  | forward (name : Bytes)
  /-- A cell of the store. -/
  | cell (address : Nat)
  /-- A declaration of the store. -/
  | declared (address : Nat)
  /-- Cannot be built. -/
  | raise (cause : Fault)

namespace Grammar

variable {a : Alphabet}

instance : Inhabited (Grammar a) := ⟨.leaf .eof⟩

/-! ## Descriptions of single items -/

/-- One item of a class. -/
def one (c : ItemClass a.Carrier) : Grammar a := .leaf (.satisfy c)

/-- The given item, under a label. -/
def item (x : a.Carrier) (label : Bytes) : Grammar a := .one (.only x label)

/-- Any item. -/
def anyItem : Grammar a := .one .any

/-- Succeeds with a value. -/
def succeed (v : Value) : Grammar a := .leaf (.succeed v)

/-- Fails, expecting a label. -/
def fail (label : Bytes) : Grammar a := .leaf (.fail label)

/-! ## Repetition -/

/-- Repeats with a least and a greatest count. -/
def timesOf (p : Grammar a) (min max : Nat) : Grammar a := .times p (Bounds.of .times min max)

/-- Repeats a number of times that lies in a half-open range. -/
def timesIn (p : Grammar a) (lower upper : Nat) : Grammar a := .times p (Bounds.ofRange lower upper)

def many (p : Grammar a) : Grammar a := .times p (.ok .any)

def optional (p : Grammar a) : Grammar a :=
  .map (.times p (.ok (.atMost 1))) fun v => do return .ofOptional (← v.list?)

/-! ## Values -/

/-- Replaces the value. -/
def replace (p : Grammar a) (v : Value) : Grammar a := .map p fun _ => .ok v

/-- Names the value. -/
def tag (p : Grammar a) (name : Bytes) : Grammar a := .map p fun v => .ok (.tagged name v)

/-- Joins a list of texts and characters. -/
def concat (p : Grammar a) : Grammar a := .map p Value.joined

/-- Combines the values of a sequence. -/
def combine (ps : List (Grammar a)) (f : List Value → Except Fault Value) : Grammar a :=
  .map (.tuple ps) (Value.onTuple f)

/-- Adds two values in one of several ways. -/
def plus (p q : Grammar a) (add : Value → Value → Except Fault Value) : Grammar a :=
  .map (.tuple [p, q]) (Value.onPair add)

/-- Tries the parts of a choice in order, two at a time from the left. -/
def orElseAll (p : Grammar a) (ps : List (Grammar a)) : Grammar a := ps.foldl (fun p q => .alt [p, q]) p

/-- Skips the blanks around a parser. -/
def token (p : Grammar .bytes) : Grammar .bytes :=
  let blanks : Grammar .bytes := many (one .blank)
  .skip (.andThen blanks p) blanks

/-! ## Going on from a value -/

/-- Takes as many items as a value counts. -/
def take (v : Value) : Grammar a :=
  match v.count? with
  | .ok n => .times anyItem (.ok (.exactly n))
  | .error cause => .raise cause

/-- Repeats a parser as often as a value counts, or up to a greatest count. -/
def repeated (p : Grammar a) (max : Option Nat) (v : Value) : Grammar a :=
  match v.count? with
  | .ok n => timesOf p n (max.getD n)
  | .error cause => .raise cause

/-- The label of an item that has to come again. -/
def sameLabel : Bytes := ascii "same"

/-- The same again: a text among bytes, or else an item. -/
def same : {a : Alphabet} → Value → Grammar a
  | .bytes, v =>
    match v.bytes? with
    | .ok s => .leaf (.str s)
    | .error cause => .raise cause
  | a, v =>
    match a.ofValue? v with
    | some x => item x sameLabel
    | none => .raise .unsuited

/-- The text up to a byte, and that byte skipped. -/
def quoted (mark : UInt8) : Grammar .bytes :=
  .skip (concat (many (one ⟨(· ≠ mark), ascii "text"⟩))) (one (.symbol mark))

/-- The text up to the byte that a value is. -/
def quotedBy : {a : Alphabet} → Value → Grammar a
  | .bytes, .char c => quoted c
  | _, _ => .raise .unsuited

/-- The parser of the first case that is the same as a value, or else another. -/
def cases (cs : List (Value × Grammar a)) (otherwise : Grammar a) (v : Value) : Grammar a :=
  match cs.find? fun c => c.1.same v with
  | some c => c.2
  | none => otherwise

end Grammar

end Furthest
