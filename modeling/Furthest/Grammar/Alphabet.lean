import Furthest.Value

/-!
# Alphabets

A described parser reads one of three kinds of items: bytes, integers of 32 bits, or words. Every item is a
value, and a value of the fitting kind stands for an item: an integer of any size for the one that it is equal
to modulo 2 ^ 32. Main statements: `Alphabet.ofValue?_toValue` and `Alphabet.ofValue?_int`.
-/

namespace Furthest

/-- The kinds of items that a described parser can read. -/
inductive Alphabet where
  | bytes
  | integers
  | words
deriving DecidableEq, Repr

namespace Alphabet

/-- The items of an alphabet. -/
abbrev Carrier : Alphabet → Type
  | bytes => UInt8
  | integers => Int32
  | words => Bytes

instance : (a : Alphabet) → DecidableEq a.Carrier
  | bytes => inferInstanceAs (DecidableEq UInt8)
  | integers => inferInstanceAs (DecidableEq Int32)
  | words => inferInstanceAs (DecidableEq Bytes)

instance : (a : Alphabet) → Item a.Carrier
  | bytes => inferInstanceAs (Item UInt8)
  | integers => inferInstanceAs (Item Int32)
  | words => inferInstanceAs (Item Bytes)

/-- An item as a value. -/
def toValue : (a : Alphabet) → a.Carrier → Value
  | bytes, c => .char c
  | integers, n => .int n.toInt
  | words, s => .string s

/-- The item that a value stands for. An integer that needs more than 32 bits is cut to the lowest 32. -/
def ofValue? : (a : Alphabet) → Value → Option a.Carrier
  | bytes, .char c => some c
  | integers, .int n => some (Int32.ofInt n)
  | words, .string s => some s
  | _, _ => none

/-- An item is read back from its value. -/
theorem ofValue?_toValue (a : Alphabet) (x : a.Carrier) : a.ofValue? (a.toValue x) = some x := by
  cases a
  · rfl
  · exact congrArg some (Int32.ofInt_toInt x)
  · rfl

/-- Integers stand for the same item exactly if they are equal modulo `2 ^ 32`. -/
theorem ofValue?_int {m n : Int} :
    integers.ofValue? (.int m) = integers.ofValue? (.int n) ↔ m.bmod Int32.size = n.bmod Int32.size := by
  rw [← Int32.toInt_ofInt, ← Int32.toInt_ofInt]
  exact Option.some_inj.trans Int32.toInt_inj.symm

end Alphabet

end Furthest
