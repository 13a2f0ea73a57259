import PatternAutomata.Dialect
import PatternAutomata.Expr

/-!
# Pattern automata — written expressions

An expression over characters is written as a pattern with no brackets but those
that it takes to read it back: around an operand whose operator binds weaker,
and around a right operand of the same operator, as operators group to the left.
`ε` is written as nothing where an operand may be left out, and as `()` where it
is a factor.
-/

namespace PatternAutomata

namespace Expr

/-- How strongly the outermost operator binds; what has none binds like a single letter. -/
def strength {α : Type} : Expr α → Nat
  | shuffle _ _ => 0
  | union _ _ => 1
  | concat _ _ => 2
  | star _ | leaf _ | epsilon => 3

/-- Is the expression `ε` itself, which is written as nothing? -/
def isEpsilon {α : Type} : Expr α → Bool
  | epsilon => true
  | _ => false

/-- The text of an operand of `|` or `&`, which has to bind as strongly as `least`. -/
def operandText (least strength : Nat) (text : List Char) : List Char :=
  if strength < least then '(' :: text ++ [')'] else text

/-- The text of a factor, which may not be left out. -/
def factorText (least strength : Nat) (isEpsilon : Bool) (text : List Char) : List Char :=
  if isEpsilon then ['(', ')'] else operandText least strength text

/-- The pattern of an expression. -/
def pattern : Expr Char → List Char
  | epsilon => []
  | leaf c => [c]
  | concat l r =>
    factorText 2 l.strength l.isEpsilon l.pattern ++ factorText 3 r.strength r.isEpsilon r.pattern
  | union l r =>
    operandText 1 l.strength l.pattern ++ '|' :: operandText 2 r.strength r.pattern
  | shuffle l r =>
    operandText 0 l.strength l.pattern ++ '&' :: operandText 1 r.strength r.pattern
  | star e => factorText 3 e.strength e.isEpsilon e.pattern ++ ['*']

/-- Are there only literals and operators of the dialect in the expression? -/
def isWrittenIn (d : Dialect) : Expr Char → Bool
  | epsilon => true
  | leaf c => d.isLiteral c
  | concat l r | union l r => l.isWrittenIn d && r.isWrittenIn d
  | shuffle l r => d.hasInterleave && (l.isWrittenIn d && r.isWrittenIn d)
  | star e => e.isWrittenIn d

end Expr

end PatternAutomata
