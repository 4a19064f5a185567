/-!
# Byte strings

Text is a sequence of bytes, compared bytewise with a proper prefix first. `ascii` writes a
literal as bytes and `decimal` a number.
-/

namespace Furthest

/-- A byte string. -/
abbrev Bytes := List UInt8

/-- The bytes of a text whose characters all lie below U+0100: one byte for each character. -/
def ascii (text : String) : Bytes :=
  text.toList.map fun c => UInt8.ofNat c.toNat

/-- The decimal numeral of a number, without leading zeros. -/
def decimal (n : Nat) : Bytes :=
  (Nat.toDigits 10 n).map fun c => UInt8.ofNat c.toNat

namespace Bytes

/-- The line feed, which ends a line. -/
def newline : UInt8 := 10

/-- The part of a text before its first zero byte: what a reader of zero-terminated text sees. -/
def beforeZero (text : Bytes) : Bytes :=
  text.takeWhile (· != 0)

/-- A text without a zero byte is seen whole. -/
theorem beforeZero_eq_self {text : Bytes} (h : ∀ b ∈ text, b ≠ 0) : beforeZero text = text := by
  induction text with
  | nil => rfl
  | cons b text ih =>
    rw [beforeZero, List.takeWhile_cons_of_pos (by simpa using h b List.mem_cons_self)]
    exact congrArg (b :: ·) (ih fun c hc => h c (List.mem_cons_of_mem b hc))

/-- Any two byte strings are comparable. -/
theorem lt_or_eq_or_gt (a b : Bytes) : a < b ∨ a = b ∨ b < a := by
  by_cases hab : a < b
  · exact .inl hab
  · by_cases hba : b < a
    · exact .inr (.inr hba)
    · exact .inr (.inl (Std.Trichotomous.trichotomous a b hab hba))

end Bytes

end Furthest
