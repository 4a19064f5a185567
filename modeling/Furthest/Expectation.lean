import Furthest.Labels

/-!
# The text of an expectation

A set of labels is written as its quoted label if it has one, and as a list of the quoted labels
otherwise. Inside quotes a backslash announces a line feed, a carriage return, a tab, a backslash and a
quote; all other bytes stand for themselves.
-/

namespace Furthest

/-- The quote around a label. -/
def Bytes.quote : UInt8 := 39

/-- The backslash, which announces an escaped byte. -/
def Bytes.backslash : UInt8 := 92

/-- The letter that stands for an escaped byte after a backslash. -/
def Bytes.escapeLetter : UInt8 → Option UInt8
  | 10 => some 110
  | 13 => some 114
  | 9 => some 116
  | 92 => some 92
  | 39 => some 39
  | _ => none

/-- A byte as it stands between quotes. -/
def Bytes.escapeByte (b : UInt8) : Bytes :=
  match escapeLetter b with
  | some letter => [backslash, letter]
  | none => [b]

/-- A label between quotes. -/
def Bytes.quoted (label : Bytes) : Bytes :=
  quote :: label.flatMap escapeByte ++ [quote]

namespace Labels

/-- The quoted labels, separated by a comma and a blank. -/
def renderList : List Bytes → Bytes
  | [] => []
  | [label] => label.quoted
  | label :: labels => label.quoted ++ ascii ", " ++ renderList labels

/-- The text of an expectation: the quoted label of a set of one, and a list for all other sets. -/
def render (s : Labels) : Bytes :=
  match s.toList with
  | [label] => label.quoted
  | labels => ascii "one of " ++ renderList labels

end Labels

end Furthest
