import PatternAutomata.Expr
import PatternAutomata.SyntaxError
import PatternAutomata.Dialect

/-!
# Pattern automata — the grammar of patterns

Patterns are read by recursive descent, from the weakest operator to the
strongest:

    regexp        ::= alternation ('&' alternation)*        in the parallel dialect
                    | alternation                           in the plain one
    alternation   ::= concatenation ('|' concatenation)*
    concatenation ::= repetition repetition*                while a factor can start
    repetition    ::= atom '*'*
    atom          ::= literal | '(' regexp ')' | nothing

All operators group to the left and every operand may be left out. The only
recursion is through groups, so the rules are written over a reader of groups,
and `regexp` ties the knot by recursion on the depth that is left. The loops end
because each rule says how much it has read: a `Reading` carries the proof that
it stops no earlier than it started, and later where a factor starts.

## Results

* `atom_of_literal`, `stars_of_eq`, … — what each rule does at the token before it.
* `groupOf_of_closing`, `closing_of_groupOf` — a group is read iff its `)` is where the inside
  stops.
-/

namespace PatternAutomata

/-- A place in a pattern: what is left to read, how many characters lie before it,
and the literals among them, the latest first. -/
structure Cursor where
  rest : List Char
  offset : Nat := 0
  literals : List Char := []
  deriving DecidableEq, Repr

namespace Cursor

def token (d : Dialect) (s : Cursor) : Token := Token.ofRest d s.rest

/-- The place after the next character. -/
def advance (s : Cursor) : Cursor :=
  { s with rest := s.rest.tail, offset := s.offset + 1 }

/-- The place after the next character, which is the literal `c`. -/
def advanceOver (s : Cursor) (c : Char) : Cursor :=
  { s.advance with literals := c :: s.literals }

/-- The least number of characters that a rule reads from here. -/
def least (d : Dialect) (s : Cursor) : Nat := if (s.token d).startsFactor then 1 else 0

/-- Where a factor starts, at least its first character is read. -/
theorem least_eq_one {d : Dialect} {s : Cursor} (h : (s.token d).startsFactor = true) :
    s.least d = 1 := if_pos h

/-- Elsewhere it may be that nothing is read. -/
theorem least_eq_zero {d : Dialect} {s : Cursor} (h : (s.token d).startsFactor = false) :
    s.least d = 0 := if_neg (by rw [h]; exact Bool.false_ne_true)

/-- Going on takes a character, unless the pattern has ended. -/
theorem length_advance_lt {d : Dialect} {s : Cursor} (h : s.token d ≠ .finish) :
    s.advance.rest.length < s.rest.length := by
  obtain ⟨rest, offset, literals⟩ := s
  cases rest with
  | nil => exact absurd rfl h
  | cons c rest => exact Nat.lt_succ_self _

end Cursor

/-- Why reading stopped short: the pattern is wrong, or a token was left over that
the rules should have read. -/
inductive Halt.Cause where
  | syntaxError (kind : SyntaxError.Kind)
  | leftover (token : Token)
  deriving DecidableEq, Repr

/-- Why and where reading stopped short. -/
structure Halt where
  cause : Halt.Cause
  cursor : Cursor
  deriving DecidableEq, Repr

namespace Halt

def error (kind : SyntaxError.Kind) (s : Cursor) : Halt where
  cause := .syntaxError kind
  cursor := s

/-- The token at `s` does not belong there. The rules read every operator and every token
that starts a factor, so only the end or an invalid character can be left. -/
def unexpected (d : Dialect) (s : Cursor) : Halt where
  cursor := s
  cause := match s.token d with
    | .finish => .syntaxError .unclosedGroup
    | .invalid c => .syntaxError (.invalidCharacter c)
    | token => .leftover token

end Halt

/-- What was read from `s`: an expression, and where reading stopped, after at least
`least` characters. The bound is what the loops of the grammar end by: a factor that
starts is at least one character long. -/
structure Reading (s : Cursor) (least : Nat) where
  expr : Expr Char
  stop : Cursor
  stop_le : stop.rest.length + least ≤ s.rest.length

-- ---------------------------------------------------------------------------
-- Operators
-- ---------------------------------------------------------------------------

/-- The operators that are written between their operands. -/
inductive Operator where
  | bar
  | amp
  deriving DecidableEq, Repr

namespace Operator

def token : Operator → Token
  | bar => .bar
  | amp => .amp

def apply : Operator → Expr Char → Expr Char → Expr Char
  | bar => .union
  | amp => .shuffle

/-- No operator is the end of the pattern, so there is a character to go over. -/
theorem token_ne_finish (op : Operator) : op.token ≠ .finish := by
  cases op <;> simp [token]

end Operator

namespace Rule

/-- The reader of a whole group, from its `(` to its `)`. -/
abbrev GroupReader (d : Dialect) : Type :=
  (s : Cursor) → s.token d = .opening → Except Halt (Reading s 1)

/-- The reader of an operand. -/
abbrev OperandReader (d : Dialect) : Type :=
  (s : Cursor) → Except Halt (Reading s (s.least d))

variable {d : Dialect}

-- ---------------------------------------------------------------------------
-- Repetitions
-- ---------------------------------------------------------------------------

/-- A literal, a group, or nothing. -/
def atom (group : GroupReader d) : OperandReader d := fun s =>
  match h : s.token d with
  | .literal c => .ok {
      expr := .leaf c
      stop := s.advanceOver c
      stop_le := by
        have hlt := Cursor.length_advance_lt (d := d) (s := s) (by simp [h])
        rw [Cursor.least_eq_one (by rw [h]; rfl)]
        exact hlt }
  | .opening =>
    (group s h).map fun r => {
      expr := r.expr
      stop := r.stop
      stop_le := by
        rw [Cursor.least_eq_one (by rw [h]; rfl)]
        exact r.stop_le }
  | .closing | .bar | .star | .amp | .invalid _ | .finish => .ok {
      expr := .epsilon
      stop := s
      stop_le := by
        rw [Cursor.least_eq_zero (by rw [h]; rfl)]
        exact Nat.le_refl _ }

variable {origin : Cursor} {least : Nat}

/-- Reads the stars after what was read so far. -/
def stars (d : Dialect) (r : Reading origin least) : Reading origin least :=
  if h : r.stop.token d = .star then
    have hlt := Cursor.length_advance_lt (d := d) (s := r.stop) (by simp [h])
    stars d {
      expr := .star r.expr
      stop := r.stop.advance
      stop_le := by
        have hle := r.stop_le
        omega }
  else r
termination_by r.stop.rest.length

/-- An atom and the stars after it. -/
def repetition (group : GroupReader d) : OperandReader d := fun s =>
  (atom group s).map (stars d)

-- ---------------------------------------------------------------------------
-- Chains of operands
-- ---------------------------------------------------------------------------

/-- Reads the factors after what was read so far, and groups them to the left. -/
def factors (group : GroupReader d) (left : Reading origin least) :
    Except Halt (Reading origin least) :=
  if h : (left.stop.token d).startsFactor then do
    let right ← repetition group left.stop
    have hlt : right.stop.rest.length < left.stop.rest.length := by
      have hle := right.stop_le
      have hleast := Cursor.least_eq_one h
      omega
    factors group {
      expr := .concat left.expr right.expr
      stop := right.stop
      stop_le := by
        have hle := left.stop_le
        omega }
  else .ok left
termination_by left.stop.rest.length

/-- Factors one after the other. The first may be left out, the others are there only if
they start. -/
def concatenation (group : GroupReader d) : OperandReader d := fun s => do
  factors group (← repetition group s)

/-- Reads the operands that `op` joins to what was read so far, and groups them to the left. -/
def operands (op : Operator) (operand : OperandReader d) (left : Reading origin least) :
    Except Halt (Reading origin least) :=
  if h : left.stop.token d = op.token then do
    have hlt := Cursor.length_advance_lt (d := d) (s := left.stop) (h ▸ op.token_ne_finish)
    let right ← operand left.stop.advance
    have hle := right.stop_le
    operands op operand {
      expr := op.apply left.expr right.expr
      stop := right.stop
      stop_le := by
        have hle' := left.stop_le
        omega }
  else .ok left
termination_by left.stop.rest.length

/-- Concatenations with `|` between them. -/
def alternation (group : GroupReader d) : OperandReader d := fun s => do
  operands .bar (concatenation group) (← concatenation group s)

/-- Alternations with `&` between them. -/
def interleaving (group : GroupReader d) : OperandReader d := fun s => do
  operands .amp (alternation group) (← alternation group s)

-- ---------------------------------------------------------------------------
-- Groups
-- ---------------------------------------------------------------------------

/-- A whole expression: in the plain dialect there is nothing weaker than `|`. -/
def expression (group : GroupReader d) : OperandReader d :=
  if d.hasInterleave then interleaving group else alternation group

/-- A group, given the reader of what is inside. -/
def groupOf (inside : OperandReader d) : GroupReader d := fun s h => do
  have hlt := Cursor.length_advance_lt (d := d) (s := s) (by simp [h])
  let inner ← inside s.advance
  have hle := inner.stop_le
  match h' : inner.stop.token d with
  | .closing =>
    have hlt' := Cursor.length_advance_lt (d := d) (s := inner.stop) (by simp [h'])
    return { expr := inner.expr, stop := inner.stop.advance, stop_le := by omega }
  | _ => throw (.unexpected d inner.stop)

/-- An expression in which groups may be nested `room` deep, out of `limit` allowed. -/
def regexp (d : Dialect) (limit : Nat) : (room : Nat) → OperandReader d
  | 0 => expression fun s _ => throw (.error (.tooDeep limit) s)
  | room + 1 => expression (groupOf (regexp d limit room))

-- ---------------------------------------------------------------------------
-- What the next token decides
-- ---------------------------------------------------------------------------

section Decisions

variable {group : GroupReader d} {operand inside : OperandReader d} {op : Operator} {s : Cursor}
  {left : Reading origin least}

/-- At a literal, an atom is the literal. -/
theorem atom_of_literal (group : GroupReader d) {c : Char} (h : s.token d = .literal c) :
    ∃ r, atom group s = .ok r ∧ r.expr = .leaf c ∧ r.stop = s.advanceOver c := by
  unfold atom
  split
  case h_1 c' h' =>
    obtain rfl := Token.literal.inj (h.symm.trans h')
    exact ⟨_, rfl, rfl, rfl⟩
  all_goals (rename_i h'; exact nomatch h.symm.trans h')

/-- At a `(`, an atom is the group, and stops where the group stops. -/
theorem atom_of_opening (group : GroupReader d) (h : s.token d = .opening) :
    ∃ f : Reading s 1 → Reading s (s.least d), atom group s = (group s h).map f ∧
      ∀ r, (f r).expr = r.expr ∧ (f r).stop = r.stop := by
  unfold atom
  split
  case h_2 => exact ⟨_, rfl, fun _ => ⟨rfl, rfl⟩⟩
  all_goals (rename_i h'; exact nomatch h.symm.trans h')

/-- Elsewhere an atom is left out, and nothing is read. -/
theorem atom_of_not_startsFactor (group : GroupReader d)
    (h : (s.token d).startsFactor = false) :
    ∃ r, atom group s = .ok r ∧ r.expr = .epsilon ∧ r.stop = s := by
  unfold atom
  split
  case h_1 h' => rw [h'] at h; exact nomatch h
  case h_2 h' => rw [h'] at h; exact nomatch h
  all_goals exact ⟨_, rfl, rfl, rfl⟩

/-- At a star, one more repetition is made, and the stars after it are read. -/
theorem stars_of_eq (h : left.stop.token d = .star) : ∃ r : Reading origin least,
    stars d left = stars d r ∧ r.expr = .star left.expr ∧ r.stop = left.stop.advance := by
  rw [stars, dif_pos h]
  exact ⟨_, rfl, rfl, rfl⟩

theorem stars_of_ne (h : left.stop.token d ≠ .star) : stars d left = left := by
  rw [stars, dif_neg h]

/-- Where a factor starts, it is read and joined to what was read before. -/
theorem factors_of_startsFactor (group : GroupReader d)
    (h : (left.stop.token d).startsFactor = true) :
    ∃ f : Reading left.stop (left.stop.least d) → Reading origin least,
      (factors group left = do factors group (f (← repetition group left.stop))) ∧
        ∀ r, (f r).expr = .concat left.expr r.expr ∧ (f r).stop = r.stop := by
  rw [factors, dif_pos h]
  exact ⟨_, rfl, fun _ => ⟨rfl, rfl⟩⟩

theorem factors_of_not_startsFactor (h : (left.stop.token d).startsFactor = false) :
    factors group left = .ok left := by
  rw [factors, dif_neg (by rw [h]; exact Bool.false_ne_true)]

/-- At the sign of the operator, one more operand is read and joined. -/
theorem operands_of_eq (operand : OperandReader d) (h : left.stop.token d = op.token) :
    ∃ f : Reading left.stop.advance (left.stop.advance.least d) → Reading origin least,
      (operands op operand left = do operands op operand (f (← operand left.stop.advance))) ∧
        ∀ r, (f r).expr = op.apply left.expr r.expr ∧ (f r).stop = r.stop := by
  rw [operands, dif_pos h]
  exact ⟨_, rfl, fun _ => ⟨rfl, rfl⟩⟩

theorem operands_of_ne (h : left.stop.token d ≠ op.token) :
    operands op operand left = .ok left := by
  rw [operands, dif_neg h]

/-- A group is read if its `)` is next after what is inside. -/
theorem groupOf_of_closing {h : s.token d = .opening} {inner : Reading s.advance _}
    (hinner : inside s.advance = .ok inner) (hclosing : inner.stop.token d = .closing) :
    ∃ r, groupOf inside s h = .ok r ∧ r.expr = inner.expr ∧ r.stop = inner.stop.advance := by
  unfold groupOf
  rw [hinner]
  show ∃ r, (match h' : inner.stop.token d with | .closing => _ | _ => _) = Except.ok r ∧ _
  split
  · exact ⟨_, rfl, rfl, rfl⟩
  · rename_i hne
    exact absurd hclosing hne

/-- Nor is one read otherwise. -/
theorem closing_of_groupOf {h : s.token d = .opening} {r : Reading s 1}
    (hr : groupOf inside s h = .ok r) :
    ∃ inner, inside s.advance = .ok inner ∧ inner.stop.token d = .closing ∧
      r.expr = inner.expr ∧ r.stop = inner.stop.advance := by
  unfold groupOf at hr
  cases hinner : inside s.advance with
  | error halt =>
    rw [hinner] at hr
    exact nomatch hr
  | ok inner =>
    rw [hinner] at hr
    refine ⟨inner, rfl, ?_⟩
    change (match h' : inner.stop.token d with | .closing => _ | _ => _) = Except.ok r at hr
    split at hr
    · rename_i hclosing
      exact ⟨hclosing, Except.ok.inj hr ▸ ⟨rfl, rfl⟩⟩
    · exact nomatch hr

end Decisions

end Rule

end PatternAutomata
