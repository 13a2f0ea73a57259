import PatternAutomata.Word

/-!
# Pattern automata — decimal numbers

Numbers are given on the command line in decimal. A number fits in a word of
64 bits and may carry a plus sign; nothing else is allowed around its digits.
-/

namespace PatternAutomata.Text

/-- The value of a run of decimal digits, the first counting most. -/
def digitsValue (digits : List Char) : Nat :=
  digits.foldl (fun n c => 10 * n + (c.toNat - '0'.toNat)) 0

/-- The word that a run of decimal digits stands for. -/
def wordOfDigits? (digits : List Char) : Option Nat :=
  if !digits.isEmpty && digits.all Char.isDigit && digitsValue digits ≤ maxWord then
    some (digitsValue digits)
  else none

/-- The word that a decimal number stands for. -/
def word? : List Char → Option Nat
  | '+' :: digits => wordOfDigits? digits
  | digits => wordOfDigits? digits

end PatternAutomata.Text
