/-!
# Pattern automata — dialects and tokens

A pattern is written in one of two dialects. They share their grammar, but the
parallel dialect adds one operator, the interleaving `&`, and so has one literal
less. Every character is a token of its own, and what it means depends on
nothing but the dialect.
-/

namespace PatternAutomata

/-- The dialects. What is not an operator in one of them may be a literal there, so `&`
stands for itself in the plain one. -/
inductive Dialect where
  | plain
  | parallel
  deriving DecidableEq, Repr

namespace Dialect

/-- Is `&` an operator? -/
def hasInterleave : Dialect → Bool
  | plain => false
  | parallel => true

/-- The characters that are literals besides the ASCII letters and digits. The signs
`(`, `)`, `|` and `*` are not among them, as they are operators in every dialect. -/
def punctuation : String := "!\"#$%&'+,-./:;<=>?@[\\]^_`\x7b\x7d~"

/-- Does `c` stand for itself? -/
def isLiteral (d : Dialect) (c : Char) : Bool :=
  if c = '&' then !d.hasInterleave else c.isAlphanum || punctuation.toList.contains c

/-- The dialect's name in reports. -/
def name : Dialect → String
  | plain => "Plain"
  | parallel => "Parallel"

end Dialect

/-- What one character of a pattern means; `finish` is what follows the last one. -/
inductive Token where
  | literal (c : Char)
  | opening
  | closing
  | bar
  | star
  | amp
  | invalid (c : Char)
  | finish
  deriving DecidableEq, Repr

namespace Token

/-- What a character means. Operators are looked for first, so a sign is never a literal. -/
def ofChar (d : Dialect) (c : Char) : Token :=
  if c = '(' then opening
  else if c = ')' then closing
  else if c = '|' then bar
  else if c = '*' then star
  else if c = '&' ∧ d.hasInterleave then amp
  else if d.isLiteral c then literal c
  else invalid c

/-- The token at the head of what is left of a pattern. -/
def ofRest (d : Dialect) : List Char → Token
  | [] => finish
  | c :: _ => ofChar d c

/-- Concatenation is written without a sign: a factor follows exactly where
the next token can start one. -/
def startsFactor : Token → Bool
  | literal _ | opening => true
  | _ => false

@[simp] theorem startsFactor_literal (c : Char) : (literal c).startsFactor = true := rfl

@[simp] theorem startsFactor_opening : opening.startsFactor = true := rfl

/-- A factor starts with a literal or with a group. -/
theorem startsFactor_iff {t : Token} :
    t.startsFactor = true ↔ (∃ c, t = literal c) ∨ t = opening := by
  cases t with
  | literal c => exact iff_of_true rfl (.inl ⟨c, rfl⟩)
  | opening => exact iff_of_true rfl (.inr rfl)
  | _ => exact iff_of_false Bool.false_ne_true fun h => h.elim (fun ⟨_, h⟩ => nomatch h) nofun

end Token

end PatternAutomata
