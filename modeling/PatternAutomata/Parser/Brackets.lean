import PatternAutomata.Parser

/-!
# Pattern automata — brackets

Every operand of a pattern may be left out, so operators may stand anywhere, and
only brackets and foreign characters can be wrong. One scan from left to right
with a count of the open groups finds the first error, without any grammar.
-/

namespace PatternAutomata

/-- Does `c` stand for an operator? Concatenation has no sign. -/
def Dialect.isSign (d : Dialect) (c : Char) : Bool :=
  c == '*' || c == '|' || (c == '&' && d.hasInterleave)

/-- The first error from `offset` on, inside of `opened` groups. The characters of the pattern
are looked at as they are: brackets are counted, literals and signs are passed over, and any
other character is foreign. -/
def firstErrorFrom (o : Options) (opened offset : Nat) : List Char → Option SyntaxError
  | [] =>
    if opened = 0 then none else some { kind := .unclosedGroup, offset := offset, errors := 1 }
  | c :: rest =>
    if c = '(' then
      if o.maxDepth ≤ opened then
        some { kind := .tooDeep o.maxDepth, offset := offset, errors := 1 }
      else firstErrorFrom o (opened + 1) (offset + 1) rest
    else if c = ')' then
      match opened with
      | 0 => some { kind := .unmatchedClose, offset := offset, errors := 1 }
      | outer + 1 => firstErrorFrom o outer (offset + 1) rest
    else if o.dialect.isLiteral c || o.dialect.isSign c then
      firstErrorFrom o opened (offset + 1) rest
    else some { kind := .invalidCharacter c, offset := offset, errors := 1 }

/-- The first error of a pattern, if it has any. -/
def firstError? (o : Options) (pattern : String) : Option SyntaxError :=
  firstErrorFrom o 0 0 pattern.toList

/-- The greatest number of groups that are open at once, when `opened` are open before. -/
def deepestFrom (opened : Nat) : List Char → Nat
  | [] => opened
  | c :: rest =>
    if c = '(' then deepestFrom (opened + 1) rest
    else if c = ')' then max opened (deepestFrom (opened - 1) rest)
    else deepestFrom opened rest

/-- How deep the groups of a pattern are nested. -/
def nesting (pattern : List Char) : Nat := deepestFrom 0 pattern

end PatternAutomata
