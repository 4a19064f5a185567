import Furthest.Bytes

/-!
# Places in an input

An index into bytes is shown to a reader as a line and a column, both counted from zero; an index into
other items is shown as it is. Main statements: `LineColumn.locate_zero`, `LineColumn.locate_succ`
(one step over a byte) and `LineColumn.locate_succ_of_length_le` (past the end each step is a column).
-/

namespace Furthest

/-- A line and a column, both counted from zero. -/
structure LineColumn where
  line : Nat
  column : Nat
deriving DecidableEq, Repr

namespace LineColumn

/-- The index at which the last line of a text starts: after its last line feed, or at zero. -/
def lastLineStart (text : Bytes) : Nat :=
  text.length - (text.reverse.takeWhile (· != Bytes.newline)).length

/-- The line and the column of an index. Beyond the end of the input each index is a further column of
the last line. -/
def locate (input : Bytes) (index : Nat) : LineColumn :=
  let head := input.take index
  ⟨head.count Bytes.newline, index - lastLineStart head⟩

/-- Line and column with a colon between them. -/
def render (p : LineColumn) : Bytes := decimal p.line ++ ascii ":" ++ decimal p.column

@[simp] theorem lastLineStart_nil : lastLineStart [] = 0 := rfl

theorem lastLineStart_le (text : Bytes) : lastLineStart text ≤ text.length := Nat.sub_le ..

theorem lastLineStart_append_newline (text : Bytes) :
    lastLineStart (text ++ [Bytes.newline]) = text.length + 1 := by
  simp [lastLineStart]

theorem lastLineStart_append_of_ne {text : Bytes} {b : UInt8} (h : b ≠ Bytes.newline) :
    lastLineStart (text ++ [b]) = lastLineStart text := by
  have hb : (b != Bytes.newline) = true := by simpa using h
  simp [lastLineStart, hb]

theorem locate_zero (input : Bytes) : locate input 0 = ⟨0, 0⟩ := by
  simp [locate]

/-- A line feed starts a line, and any other byte ends one column. -/
theorem locate_succ {input : Bytes} {index : Nat} (h : index < input.length) :
    locate input (index + 1) =
      if input[index] = Bytes.newline then ⟨(locate input index).line + 1, 0⟩
      else ⟨(locate input index).line, (locate input index).column + 1⟩ := by
  have htake : input.take (index + 1) = input.take index ++ [input[index]] := by simp
  have hlen : (input.take index).length = index := by simp; omega
  have hle := lastLineStart_le (input.take index)
  rw [hlen] at hle
  simp only [locate, htake]
  split
  · next hb => simp [hb, lastLineStart_append_newline, hlen]
  · next hb =>
    rw [lastLineStart_append_of_ne hb, List.count_append, List.count_singleton]
    simp [hb]
    omega

/-- At and beyond the end each index is one column further. -/
theorem locate_succ_of_length_le {input : Bytes} {index : Nat} (h : input.length ≤ index) :
    locate input (index + 1) = ⟨(locate input index).line, (locate input index).column + 1⟩ := by
  have hle := lastLineStart_le input
  simp only [locate, List.take_of_length_le h, List.take_of_length_le (Nat.le_succ_of_le h),
    LineColumn.mk.injEq, true_and]
  omega

end LineColumn

/-- Items that a parser can read: how an index into a sequence of them is shown to a reader. -/
class Item (ι : Type) where
  describe : List ι → Nat → Bytes

/-- An index into bytes is shown as line and column. -/
instance : Item UInt8 := ⟨fun input index => (LineColumn.locate input index).render⟩

/-- An index into integers is shown as it is. -/
instance : Item Int32 := ⟨fun _ index => decimal index⟩

/-- An index into words is shown as it is. -/
instance : Item Bytes := ⟨fun _ index => decimal index⟩

end Furthest
