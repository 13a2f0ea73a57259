import PatternAutomata.Text.CharRanges
import PatternAutomata.Text.GraphemeExtend
import PatternAutomata.Text.Unprinted

/-!
# Pattern automata — quoted text

Messages show characters and texts between quotes so that every character can
be told apart: the quote itself and the backslash are preceded by a backslash,
four controls have a letter (`\0`, `\t`, `\r`, `\n`), and a character that
would not be seen on its own is written by its code point, as in `\u{301}`.
-/

namespace PatternAutomata.Text

/-- Letters without a shape: the four fillers of the Hangul blocks. -/
def fillerRanges : List (Nat × Nat) := [(0x115f, 0x1160), (0x3164, 0x3164), (0xffa0, 0xffa0)]

/-- The halfwidth sound marks extend graphemes, but each has a cell of its own. -/
def soundMarkRanges : List (Nat × Nat) := [(0xff9e, 0xff9f)]

/-- Is the character drawn onto the one before it? -/
def isOverlaid (c : Char) : Bool :=
  inRanges c.toNat graphemeExtendRanges && !inRanges c.toNat soundMarkRanges

/-- Can the character be seen when it stands alone? -/
def isGraphic (c : Char) : Bool :=
  !(inRanges c.toNat unprintedRanges || isOverlaid c || inRanges c.toNat fillerRanges)

/-- The code point of `c` in lower-case hexadecimal, as in `\u{e9}`. -/
def codePointEscape (c : Char) : String :=
  "\\u\x7b" ++ String.ofList (Nat.toDigits 16 c.toNat) ++ "\x7d"

/-- How `c` is written between two `delimiter`s. -/
def escape (delimiter c : Char) : String :=
  if c = '\x00' then "\\0"
  else if c = '\t' then "\\t"
  else if c = '\r' then "\\r"
  else if c = '\n' then "\\n"
  else if c = '\\' ∨ c = delimiter then String.ofList ['\\', c]
  else if isGraphic c then String.ofList [c]
  else codePointEscape c

/-- The character between single quotes. -/
def quotedChar (c : Char) : String :=
  "'" ++ escape '\'' c ++ "'"

/-- The text between double quotes. -/
def quoted (s : String) : String :=
  "\"" ++ String.join (s.toList.map (escape '"')) ++ "\""

end PatternAutomata.Text
