import PatternAutomata.Parser

/-!
# Pattern automata — a parser at work

A parser keeps what it knows in fields that all rules of the grammar change: its
place in the pattern, the nodes it has made, the errors it has met. No rule is
broken off at an error. Instead `done` is set, no loop goes on then, and the rules
return one after the other, each adding the node that it still owes.

The loops end because each rule says how much less is left to do: a `Ran` carries
the proof that it left no more than it found, and less where a factor starts. An
error leaves nothing to do.

A parser is used for many patterns, one at a time. A program that uses it makes a
sequence of calls (`Call`), and each starts from what the one before it has left.
-/

namespace PatternAutomata

/-- The node of an operator over two nodes. -/
def Operator.node : Operator → Nat → Nat → Node
  | bar => .union
  | amp => .shuffle

namespace Parser

/-- The token at place `i`. -/
def tokenAt (d : Dialect) (chars : Array Char) (i : Nat) : Token :=
  (chars[i]?).elim .finish (Token.ofChar d)

/-- A parser with all that it keeps from one rule to the next, and from one pattern to the next. -/
structure Machine where
  options : Options
  pattern : String := ""
  chars : Array Char := #[]
  /-- The place of the lookahead. -/
  cursor : Nat := 0
  lookahead : Token := .finish
  errors : Nat := 0
  /-- Set at the first error, for good. -/
  done : Bool := false
  error? : Option SyntaxError := none
  nodes : Array Node := #[]
  /-- The distinct literals met so far, in the order of their first occurrence. -/
  symbols : List Char := []
  positions : Array Letter := #[]
  lookahead_eq : lookahead = tokenAt options.dialect chars cursor := by rfl
  deriving DecidableEq, Repr

namespace Machine

-- ---------------------------------------------------------------------------
-- Steps
-- ---------------------------------------------------------------------------

/-- Forgets everything about the previous pattern. -/
def setPattern (m : Machine) (pattern : String) : Machine :=
  let chars := pattern.toList.toArray
  { m with
    pattern := pattern
    chars := chars
    cursor := 0
    errors := 0
    done := false
    error? := none
    nodes := #[]
    symbols := []
    positions := #[]
    lookahead := tokenAt m.options.dialect chars 0
    lookahead_eq := rfl }

/-- Goes over the lookahead to the next token. The rules never do so at the end. -/
def advance (m : Machine) : Machine :=
  { m with
    cursor := m.cursor + 1
    lookahead := tokenAt m.options.dialect m.chars (m.cursor + 1)
    lookahead_eq := rfl }

/-- Counts an error. The first one is the one that is reported. -/
def fail (m : Machine) (kind : SyntaxError.Kind) : Machine :=
  let errors := m.errors + 1
  { m with
    errors := errors
    done := true
    error? := m.error? <|> some { kind := kind, offset := m.cursor, errors := errors } }

/-- Why the lookahead does not belong here. The loops read every operator and every token that
starts a factor, so only the end or an invalid character can be left. -/
def unexpected (m : Machine) : Except Fault SyntaxError.Kind :=
  match m.lookahead with
  | .finish => .ok .unclosedGroup
  | .invalid c => .ok (.invalidCharacter c)
  | token => .error (.leftover token)

def push (m : Machine) (node : Node) : Machine := { m with nodes := m.nodes.push node }

/-- The node that was pushed last. -/
def top (m : Machine) : Nat := m.nodes.size - 1

/-- Makes the node of a literal, which gets the next position. The lookahead is left as it
is. -/
def literal (m : Machine) (c : Char) : Machine :=
  let positions := m.positions.push (.char c)
  { m with
    positions := positions
    symbols := if m.symbols.contains c then m.symbols else m.symbols ++ [c]
    nodes := m.nodes.push (.char c positions.size) }

/-- Makes the node of the end marker, at the last position. -/
def endMarker (m : Machine) : Machine :=
  let positions := m.positions.push .endMarker
  { m with
    positions := positions
    nodes := m.nodes.push (.endMarker positions.size) }

-- ---------------------------------------------------------------------------
-- What is left to do
-- ---------------------------------------------------------------------------

/-- The characters that are left and the end of the pattern, until there is an error. -/
def todo (m : Machine) : Nat := if m.done then 0 else m.chars.size - m.cursor + 1

/-- How much less a rule leaves at least. -/
def least (m : Machine) : Nat := if !m.done && m.lookahead.startsFactor then 1 else 0

/-- Before the end there is a character at the place. -/
theorem cursor_lt_size {m : Machine} (h : m.lookahead ≠ .finish) : m.cursor < m.chars.size := by
  refine Nat.lt_of_not_le fun hle => h ?_
  rw [m.lookahead_eq, tokenAt, Array.getElem?_eq_none hle]
  rfl

/-- Going over a token leaves less to do. -/
theorem todo_advance_lt {m : Machine} (hdone : m.done = false) (h : m.lookahead ≠ .finish) :
    m.advance.todo < m.todo := by
  have hlt := cursor_lt_size h
  simp only [todo, advance, hdone, Bool.false_eq_true, if_false]
  omega

/-- After an error nothing is left to do. -/
theorem todo_fail_lt {m : Machine} (hdone : m.done = false) (kind : SyntaxError.Kind) :
    (m.fail kind).todo < m.todo := by
  simp [todo, fail, hdone]

/-- Where a factor starts, and no error was met, a rule leaves less to do. -/
theorem least_eq_one {m : Machine} (hdone : m.done = false)
    (h : m.lookahead.startsFactor = true) : m.least = 1 := by
  simp [least, hdone, h]

theorem least_eq_zero {m : Machine} (h : m.done = true ∨ m.lookahead.startsFactor = false) :
    m.least = 0 := by
  rcases h with h | h <;> simp [least, h]

/-- A rule that started from `m` has made `node`, and left the parser as `after`. It has
made progress by `least` at least, which the loops count on. -/
structure Ran (m : Machine) (least : Nat) where
  node : Nat
  after : Machine
  todo_le : after.todo + least ≤ m.todo

-- ---------------------------------------------------------------------------
-- Repetitions
-- ---------------------------------------------------------------------------

/-- The rule for a whole group, from its `(` to its `)`. -/
abbrev GroupRule : Type :=
  (m : Machine) → m.done = false → m.lookahead = .opening → Except Fault (Ran m 1)

/-- The rule for an operand. -/
abbrev OperandRule : Type := (m : Machine) → Except Fault (Ran m m.least)

/-- Nothing is read where no factor starts. -/
def omitted (m : Machine) (h : m.done = true ∨ m.lookahead.startsFactor = false) :
    Ran m m.least where
  node := (m.push .epsilon).top
  after := m.push .epsilon
  todo_le := by
    rw [least_eq_zero h]
    exact Nat.le_refl _

/-- A literal, a group, or nothing. -/
def atom (group : GroupRule) : OperandRule := fun m =>
  if hdone : m.done = true then .ok (m.omitted (.inl hdone))
  else
    have hdone : m.done = false := by simpa using hdone
    match h : m.lookahead with
    | .literal c => .ok {
        node := (m.advance.literal c).top
        after := m.advance.literal c
        todo_le := by
          rw [least_eq_one hdone (by rw [h]; rfl)]
          exact todo_advance_lt hdone (by simp [h]) }
    | .opening => do
      let r ← group m hdone h
      return {
        node := r.node
        after := r.after
        todo_le := by
          rw [least_eq_one hdone (by rw [h]; rfl)]
          exact r.todo_le }
    | .closing | .bar | .star | .amp | .invalid _ | .finish =>
      .ok (m.omitted (.inr (by rw [h]; rfl)))

variable {origin : Machine} {least : Nat}

/-- Reads the stars after what was made so far, one node for each. -/
def stars (r : Ran origin least) : Ran origin least :=
  if h : r.after.done = false ∧ r.after.lookahead = .star then
    let after := r.after.advance.push (.star r.node)
    have hlt : after.todo < r.after.todo := todo_advance_lt h.1 (by simp [h.2])
    stars {
      node := after.top
      after := after
      todo_le := by
        have hle := r.todo_le
        omega }
  else r
termination_by r.after.todo

/-- An atom and the stars after it. -/
def repetition (group : GroupRule) : OperandRule := fun m => do
  return stars (← atom group m)

-- ---------------------------------------------------------------------------
-- Chains of operands
-- ---------------------------------------------------------------------------

/-- Reads the factors after what was made so far, one node of a concatenation for each. -/
def factors (group : GroupRule) (left : Ran origin least) : Except Fault (Ran origin least) :=
  if h : left.after.done = false ∧ left.after.lookahead.startsFactor = true then do
    let right ← repetition group left.after
    let after := right.after.push (.concat left.node right.node)
    have hlt : after.todo < left.after.todo := by
      have hle : after.todo + left.after.least ≤ left.after.todo := right.todo_le
      have hleast := least_eq_one h.1 h.2
      omega
    factors group {
      node := after.top
      after := after
      todo_le := by
        have hle := left.todo_le
        omega }
  else .ok left
termination_by left.after.todo

/-- Factors one after the other. -/
def concatenation (group : GroupRule) : OperandRule := fun m => do
  factors group (← repetition group m)

/-- Reads the operands that `op` joins to what was read so far. -/
def operands (op : Operator) (operand : OperandRule) (left : Ran origin least) :
    Except Fault (Ran origin least) :=
  if h : left.after.done = false ∧ left.after.lookahead = op.token then do
    have hlt := todo_advance_lt h.1 (h.2 ▸ op.token_ne_finish)
    let right ← operand left.after.advance
    let after := right.after.push (op.node left.node right.node)
    have hlt' : after.todo < left.after.todo := by
      have hle : after.todo + left.after.advance.least ≤ left.after.advance.todo := right.todo_le
      omega
    operands op operand {
      node := after.top
      after := after
      todo_le := by
        have hle := left.todo_le
        omega }
  else .ok left
termination_by left.after.todo

def alternation (group : GroupRule) : OperandRule := fun m => do
  operands .bar (concatenation group) (← concatenation group m)

def interleaving (group : GroupRule) : OperandRule := fun m => do
  operands .amp (alternation group) (← alternation group m)

-- ---------------------------------------------------------------------------
-- Groups
-- ---------------------------------------------------------------------------

def expression (group : GroupRule) : OperandRule := fun m =>
  if m.options.dialect.hasInterleave then interleaving group m else alternation group m

/-- No group may be opened here. -/
def tooDeep : GroupRule := fun m hdone _ =>
  let kind := .tooDeep m.options.maxDepth
  let after := (m.fail kind).push .epsilon
  .ok { node := after.top, after := after, todo_le := todo_fail_lt hdone kind }

/-- A group, given the rule for what is inside. -/
def groupOf (inside : OperandRule) : GroupRule := fun m hdone h => do
  have hlt : m.advance.todo < m.todo := todo_advance_lt hdone (by simp [h])
  let inner ← inside m.advance
  have hle := inner.todo_le
  if hdone' : inner.after.done = true then
    return { node := inner.node, after := inner.after, todo_le := by omega }
  else if h' : inner.after.lookahead = .closing then
    have hlt' : inner.after.advance.todo < inner.after.todo :=
      todo_advance_lt (by simpa using hdone') (by simp [h'])
    return { node := inner.node, after := inner.after.advance, todo_le := by omega }
  else
    let kind ← inner.after.unexpected
    return {
      node := inner.node
      after := inner.after.fail kind
      todo_le := by
        have hlt' := todo_fail_lt (by simpa using hdone') kind
        omega }

/-- An expression in which groups may be nested `room` deep. -/
def regexp : (room : Nat) → OperandRule
  | 0 => expression tooDeep
  | room + 1 => expression (groupOf (regexp room))

-- ---------------------------------------------------------------------------
-- Whole patterns
-- ---------------------------------------------------------------------------

/-- After a whole expression nothing may follow. Answers the expression's node. -/
def whole (m : Machine) : Except Fault (Nat × Machine) := do
  let body ← regexp m.options.maxDepth m
  let m := body.after
  if m.done then return (body.node, m)
  else match m.lookahead with
    | .finish => return (body.node, m)
    | .closing => return (body.node, m.fail .unmatchedClose)
    | _ => return (body.node, m.fail (← m.unexpected))

/-- The nodes as a parse tree. -/
def tree (m : Machine) : ParseTree where
  pattern := m.pattern
  dialect := m.options.dialect
  nodes := m.nodes.toList
  symbols := m.symbols
  positions := m.positions

/-- What came out of a pattern. The nodes are handed over with the tree. -/
def result (m : Machine) : Except Fault (Except SyntaxError ParseTree × Machine) :=
  match m.error? with
  | some e => .ok (.error e, m)
  | none => do
    m.tree.check
    return (.ok m.tree, { m with nodes := #[], positions := #[] })

/-- Reads a pattern from its first character to its end. The end marker and the root are
made after errors too; then it is the error that is answered, and no tree. -/
def parse (m : Machine) (pattern : String) :
    Except Fault (Except SyntaxError ParseTree × Machine) := do
  -- nothing that an earlier pattern left is seen by the rules
  let (body, m) ← (m.setPattern pattern).whole
  let m := m.endMarker
  (m.push (.concat body m.top)).result

/-- What a parser lets be seen of itself. -/
def view (m : Machine) : Parser where
  options := m.options
  symbols := m.symbols
  error? := m.error?

-- ---------------------------------------------------------------------------
-- Calls
-- ---------------------------------------------------------------------------

/-- What a parser is told to do. A pattern that is only set is not read. -/
inductive Call where
  | setPattern (pattern : String)
  | parse (pattern : String)
  deriving DecidableEq, Repr

/-- What a call gives back: nothing, or the outcome of a parse. -/
abbrev Answer : Type := Option (Except SyntaxError ParseTree)

/-- The answer to a call, and the parser after it. -/
def call (m : Machine) : Call → Except Fault (Answer × Machine)
  | .setPattern pattern => .ok (none, m.setPattern pattern)
  | .parse pattern => do
    let (result, m) ← m.parse pattern
    return (some result, m)

/-- All calls in turn: the answer to each, and the parser after it. -/
def callAll (m : Machine) : List Call → Except Fault (List (Answer × Machine))
  | [] => .ok []
  | c :: rest => do
    let step ← m.call c
    return step :: (← step.2.callAll rest)

end Machine

end Parser

end PatternAutomata
