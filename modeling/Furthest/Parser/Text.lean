import Furthest.Parser.Choice
import Furthest.Parser.Diagnostics
import Furthest.Parser.Repetition
import Furthest.Place

/-!
# Parsers of bytes

Literals, classes of bytes, and tokens with blanks around them. `longestFirst` orders literals so that a
prefix never shadows a longer match.
-/

namespace Furthest

namespace ItemClass

/-- The given byte, which is its own label. -/
def symbol (b : UInt8) : ItemClass UInt8 := only b [b]

/-- Some bytes, which stand between brackets in the label. -/
def oneOf (bytes : Bytes) : ItemClass UInt8 := ⟨(bytes.contains ·), ascii "[" ++ bytes ++ ascii "]"⟩

/-- All bytes. -/
def character : ItemClass UInt8 := ⟨fun _ => true, ascii "any character"⟩

def digit : ItemClass UInt8 := ⟨fun b => 48 ≤ b && b ≤ 57, ascii "a digit"⟩

def lower : ItemClass UInt8 := ⟨fun b => 97 ≤ b && b ≤ 122, ascii "a lowercase letter"⟩

def upper : ItemClass UInt8 := ⟨fun b => 65 ≤ b && b ≤ 90, ascii "an uppercase letter"⟩

/-- Blanks: the space, and the bytes from the tab to the carriage return. -/
def blank : ItemClass UInt8 := ⟨fun b => b = 32 || (9 ≤ b && b ≤ 13), ascii "a space"⟩

end ItemClass

/-- Longer literals first; literals of one length stay in order. -/
def longestFirst (literals : List Bytes) : List Bytes :=
  literals.mergeSort fun x y => y.length ≤ x.length

namespace Parser

variable {σ α : Type}

/-- A literal. Comparing beyond the end of the input is a fault, even for the empty literal. -/
def str (literal : Bytes) : Parser σ UInt8 Bytes := fun xs i =>
  if xs.length < i then Run.giveUp .beyondEnd
  else if literal.isPrefixOf (xs.drop i) then return .success literal (i + literal.length) ∅
  else return .fail i (.singleton literal)

/-- The longest of some literals. -/
def strFrom (literals : List Bytes) : Parser σ UInt8 Bytes := alt ((longestFirst literals).map str)

/-- The line and the column of the cursor, consuming nothing. -/
def lineColumn : Parser σ UInt8 LineColumn := fun xs i => return .success (.locate xs i) i ∅

/-- The given byte. -/
def symbol (b : UInt8) : Parser σ UInt8 UInt8 := satisfy (.symbol b)

/-- One of some bytes. -/
def oneOf (bytes : Bytes) : Parser σ UInt8 UInt8 := satisfy (.oneOf bytes)

/-- Any byte. -/
def character : Parser σ UInt8 UInt8 := satisfy .character

def digit : Parser σ UInt8 UInt8 := satisfy .digit

def lower : Parser σ UInt8 UInt8 := satisfy .lower

def upper : Parser σ UInt8 UInt8 := satisfy .upper

/-- A letter of either case. -/
def letter : Parser σ UInt8 UInt8 := (lower.orElse upper).desc (ascii "a letter")

/-- One blank. -/
def space : Parser σ UInt8 UInt8 := satisfy .blank

/-- Blanks, at least one. -/
def whitespace : Parser σ UInt8 Bytes := space.oneOrMore.desc (ascii "whitespace")

/-- Skips the blanks around a parser. -/
def token (p : Parser σ UInt8 α) : Parser σ UInt8 α := (space.many.andThen p).skip space.many

end Parser

end Furthest
