import Furthest.Parser.Transform
import Furthest.Place

/-!
# Values

A parser that is described by data yields values of one type. The operations at the end of this module are
those that descriptions may apply to a value: each takes the kinds of value that it is meant for, and reports
any other as unsuited.
-/

namespace Furthest

/-- What a described parser yields. -/
inductive Value where
  | unit
  | bool (b : Bool)
  | char (c : UInt8)
  | string (s : Bytes)
  | int (n : Int)
  | real (x : Float)
  | list (vs : List Value)
  | tuple (vs : List Value)
  | option (v : Option Value)
  | tagged (name : Bytes) (v : Value)
  | marked (start : Nat) (v : Value) (stop : Nat)
  | place (p : LineColumn)

instance : Inhabited Value := ⟨.unit⟩

namespace Value

mutual

/-- Two values are of one kind and equal. Reals compare as numbers. -/
def same : Value → Value → Bool
  | unit, unit => true
  | bool b, bool c => b = c
  | char b, char c => b = c
  | string s, string t => s = t
  | int m, int n => m = n
  | real x, real y => x == y
  | list vs, list ws => sameAll vs ws
  | tuple vs, tuple ws => sameAll vs ws
  | option v, option w => sameOption v w
  | tagged m v, tagged n w => m = n && same v w
  | marked i v j, marked k w l => i = k && j = l && same v w
  | place p, place q => p = q
  | _, _ => false

/-- The values of two lists are the same, one by one. -/
def sameAll : List Value → List Value → Bool
  | [], [] => true
  | v :: vs, w :: ws => same v w && sameAll vs ws
  | _, _ => false

/-- Two optional values are the same. -/
def sameOption : Option Value → Option Value → Bool
  | none, none => true
  | some v, some w => same v w
  | _, _ => false

end

/-- The code of a byte, from -128 to 127. -/
def signedCode (c : UInt8) : Int := (c.toNat : Int).bmod 256

/-- How far the code of a byte lies above that of the digit zero. -/
def digitCode (c : UInt8) : Int := signedCode c - 48

/-- An integer as a count of 64 bits: negative ones count down from the greatest. -/
def toCount (n : Int) : Nat := (UInt64.ofInt n).toNat

/-- A value as a count: an integer itself, a character as a digit, a text or a list by its length. -/
def count? : Value → Except Fault Nat
  | int n => .ok (toCount n)
  | char c => .ok (toCount (digitCode c))
  | string s => .ok s.length
  | list vs => .ok vs.length
  | _ => .error .unsuited

/-- The bytes of a text or of a single character. -/
def bytes? : Value → Except Fault Bytes
  | string s => .ok s
  | char c => .ok [c]
  | _ => .error .unsuited

def int? : Value → Except Fault Int
  | int n => .ok n
  | _ => .error .unsuited

def list? : Value → Except Fault (List Value)
  | list vs => .ok vs
  | _ => .error .unsuited

def tuple? : Value → Except Fault (List Value)
  | tuple vs => .ok vs
  | _ => .error .unsuited

/-! ## Operations on one value -/

/-- The digit that a character stands for. -/
def digitValue : Value → Except Fault Value
  | char c => .ok (int (digitCode c))
  | _ => .error .unsuited

/-- The code of a character. -/
def code : Value → Except Fault Value
  | char c => .ok (int (signedCode c))
  | _ => .error .unsuited

/-- The next integer. -/
def succ (v : Value) : Except Fault Value := do return int ((← v.int?) + 1)

/-- The negative of an integer. -/
def negated (v : Value) : Except Fault Value := do return int (-(← v.int?))

/-- The length of a text or a list. -/
def length : Value → Except Fault Value
  | string s => .ok (int s.length)
  | list vs => .ok (int vs.length)
  | _ => .error .unsuited

/-- The sum of integers. -/
def sumOf (vs : List Value) : Except Fault Value := do return int ((← vs.mapM int?).foldr (· + ·) 0)

/-- The sum of a list of integers. -/
def sum (v : Value) : Except Fault Value := do sumOf (← v.list?)

/-- A text or a list backwards. -/
def reversed : Value → Except Fault Value
  | string s => .ok (string s.reverse)
  | list vs => .ok (list vs.reverse)
  | _ => .error .unsuited

/-- A list of the value alone. -/
def wrapped (v : Value) : Except Fault Value := .ok (list [v])

/-- Texts and characters joined to one text. -/
def joinOf (vs : List Value) : Except Fault Value := do return string (← vs.mapM bytes?).flatten

/-- A list of texts and characters, joined to one text. -/
def joined (v : Value) : Except Fault Value := do joinOf (← v.list?)

/-! ## Operations on two values -/

/-- Two values added: characters by their codes, integers, texts and characters joined, lists joined. -/
def addChars : Value → Value → Except Fault Value
  | char b, char c => .ok (int (signedCode b + signedCode c))
  | _, _ => .error .unsuited

def addInts (v w : Value) : Except Fault Value := do return int ((← v.int?) + (← w.int?))

def addTexts (v w : Value) : Except Fault Value := joinOf [v, w]

def addLists (v w : Value) : Except Fault Value := do return list ((← v.list?) ++ (← w.list?))

/-- Applies an operation to the two values of a pair. -/
def onPair (f : Value → Value → Except Fault Value) : Value → Except Fault Value
  | tuple [v, w] => f v w
  | _ => .error .unsuited

/-- Applies an operation to the values of a tuple. -/
def onTuple (f : List Value → Except Fault Value) (v : Value) : Except Fault Value := do f (← v.tuple?)

/-- The value of an optional match. -/
def ofOptional (vs : List Value) : Value := option vs.head?

/-- The value with where it was found. -/
def ofMarked (m : Marked Value) : Value := marked m.start m.value m.stop

end Value

end Furthest
