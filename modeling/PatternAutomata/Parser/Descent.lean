import PatternAutomata.Parser.Machine
import PatternAutomata.Word

/-!
# Pattern automata — a parse as it goes

`Machine` says what a parser knows when a rule has ended. Here the rules are written as
they go: they call each other, loop as long as the lookahead lets them, and count how
deep they are in groups, from 0 on and in words. A run (`Run`) is finite and meets no
fault. For a rule that never came to its end, for a depth that is no word, or for a
token that nothing is known to be wrong with, there would be none.

A run shows what the parser does on the way (`Moment`): which rules it enters and
leaves, and at which depth, which characters it takes, and where it fails. It adds
nodes in between, and that does not show.
-/

namespace PatternAutomata

/-- The rules of the grammar. Alternations are chains of `|`, and interleavings of `&`. -/
inductive Nonterminal where
  | regexp
  | chain (op : Operator)
  | concatenation
  | repetition
  | atom
  deriving DecidableEq, Repr

/-- The rule for what an operator joins. -/
def Operator.operand : Operator → Nonterminal
  | bar => .concatenation
  | amp => .chain .bar

/-- The operator that is read first, and so binds weakest. -/
def Dialect.weakest (d : Dialect) : Operator := if d.hasInterleave then .amp else .bar

namespace Nonterminal

/-- The tokens that a rule leaves for others. An atom may leave any. -/
def StopsAt (t : Token) : Nonterminal → Prop
  | regexp | chain .amp => t = .closing ∨ t = .finish ∨ ∃ c, t = .invalid c
  | chain .bar => (∀ c, t ≠ .literal c) ∧ t ≠ .opening ∧ t ≠ .star ∧ t ≠ .bar
  | concatenation => t = .bar ∨ t = .amp ∨ t = .closing ∨ t = .finish ∨ ∃ c, t = .invalid c
  | repetition => t ≠ .star
  | atom => True

/-- The parser has stopped where the rule may stop. -/
def Stopped (n : Nonterminal) (m : Parser.Machine) : Prop := m.done = true ∨ n.StopsAt m.lookahead

end Nonterminal

namespace Parser

/-- What shows of a parser at work. -/
inductive Move where
  | enter (rule : Nonterminal) (depth : Nat)
  /-- It takes the character at its place. -/
  | consume
  | fail (kind : SyntaxError.Kind)
  | leave (rule : Nonterminal) (depth : Nat)
  deriving DecidableEq, Repr

/-- A move, and the parser as it is before it. -/
structure Moment where
  move : Move
  parser : Machine
  deriving DecidableEq, Repr

/-- The parser as it is after the move. -/
def Moment.after (x : Moment) : Machine :=
  match x.move with
  | .enter .. | .leave .. => x.parser
  | .consume => x.parser.advance
  | .fail kind => x.parser.fail kind

/-- What a parser has before it: a rule, or what is left of one. The numbers are nodes. -/
inductive Task where
  /-- To enter a rule, go through it and leave it. -/
  | rule (rule : Nonterminal)
  | body (rule : Nonterminal)
  | stars (operand : Nat)
  | factors (left : Nat)
  | operands (op : Operator) (left : Nat)
  /-- To end a group whose inside was read. -/
  | close (inner : Nat)
  /-- A whole pattern. -/
  | pattern
  /-- To end a pattern whose expression was read. -/
  | finish (body : Nat)
  deriving DecidableEq, Repr

namespace Machine

/-- A run of a task at a depth: what it shows, the node it makes, and the parser after it. -/
inductive Run : Task → (depth : Nat) → Machine → List Moment → (node : Nat) → Machine → Prop where
  | rule {n depth m moments node m'} (hbody : Run (.body n) depth m moments node m') :
      Run (.rule n) depth m (⟨.enter n depth, m⟩ :: moments ++ [⟨.leave n depth, m'⟩]) node m'
  | regexp {depth m moments node m'}
      (hchain : Run (.rule (.chain m.options.dialect.weakest)) depth m moments node m') :
      Run (.body .regexp) depth m moments node m'
  -- chains
  | chain {op depth m first left m₁ others node m'}
      (hfirst : Run (.rule op.operand) depth m first left m₁)
      (hothers : Run (.operands op left) depth m₁ others node m') :
      Run (.body (.chain op)) depth m (first ++ others) node m'
  | operands_next {op depth m left moments right m₁ others node m'} (hdone : m.done = false)
      (htoken : m.lookahead = op.token)
      (hright : Run (.rule op.operand) depth m.advance moments right m₁)
      (hothers : Run (.operands op (m₁.push (op.node left right)).top) depth
        (m₁.push (op.node left right)) others node m') :
      Run (.operands op left) depth m (⟨.consume, m⟩ :: moments ++ others) node m'
  | operands_end {op depth m left} (h : ¬(m.done = false ∧ m.lookahead = op.token)) :
      Run (.operands op left) depth m [] left m
  -- concatenations
  | concatenation {depth m first left m₁ others node m'}
      (hfirst : Run (.rule .repetition) depth m first left m₁)
      (hothers : Run (.factors left) depth m₁ others node m') :
      Run (.body .concatenation) depth m (first ++ others) node m'
  | factors_next {depth m left moments right m₁ others node m'} (hdone : m.done = false)
      (hstarts : m.lookahead.startsFactor = true)
      (hright : Run (.rule .repetition) depth m moments right m₁)
      (hothers : Run (.factors (m₁.push (.concat left right)).top) depth
        (m₁.push (.concat left right)) others node m') :
      Run (.factors left) depth m (moments ++ others) node m'
  | factors_end {depth m left} (h : ¬(m.done = false ∧ m.lookahead.startsFactor = true)) :
      Run (.factors left) depth m [] left m
  -- repetitions
  | repetition {depth m first operand m₁ others node m'}
      (hfirst : Run (.rule .atom) depth m first operand m₁)
      (hothers : Run (.stars operand) depth m₁ others node m') :
      Run (.body .repetition) depth m (first ++ others) node m'
  | stars_next {depth m operand others node m'} (hdone : m.done = false)
      (htoken : m.lookahead = .star)
      (hothers : Run (.stars (m.advance.push (.star operand)).top) depth
        (m.advance.push (.star operand)) others node m') :
      Run (.stars operand) depth m (⟨.consume, m⟩ :: others) node m'
  | stars_end {depth m operand} (h : ¬(m.done = false ∧ m.lookahead = .star)) :
      Run (.stars operand) depth m [] operand m
  -- atoms
  | atom_done {depth m} (hdone : m.done = true) :
      Run (.body .atom) depth m [] (m.push .epsilon).top (m.push .epsilon)
  | atom_literal {depth m c} (hdone : m.done = false) (htoken : m.lookahead = .literal c) :
      Run (.body .atom) depth m [⟨.consume, m⟩] (m.advance.literal c).top (m.advance.literal c)
  | atom_tooDeep {depth m} (hdone : m.done = false) (htoken : m.lookahead = .opening)
      (hdepth : m.options.maxDepth ≤ depth) :
      Run (.body .atom) depth m [⟨.fail (.tooDeep m.options.maxDepth), m⟩]
        ((m.fail (.tooDeep m.options.maxDepth)).push .epsilon).top
        ((m.fail (.tooDeep m.options.maxDepth)).push .epsilon)
  | atom_group {depth inside m moments inner m₁ others node m'} (hdone : m.done = false)
      (htoken : m.lookahead = .opening) (hdepth : depth < m.options.maxDepth)
      (hsum : addWords depth 1 = .ok inside)
      (hinside : Run (.rule .regexp) inside m.advance moments inner m₁)
      (hclose : Run (.close inner) depth m₁ others node m') :
      Run (.body .atom) depth m (⟨.consume, m⟩ :: moments ++ others) node m'
  | atom_omitted {depth m} (hdone : m.done = false) (h : m.lookahead.startsFactor = false) :
      Run (.body .atom) depth m [] (m.push .epsilon).top (m.push .epsilon)
  -- the end of a group
  | close_done {depth m inner} (hdone : m.done = true) : Run (.close inner) depth m [] inner m
  | close_closing {depth m inner} (hdone : m.done = false) (htoken : m.lookahead = .closing) :
      Run (.close inner) depth m [⟨.consume, m⟩] inner m.advance
  | close_unexpected {depth m inner kind} (hdone : m.done = false) (h : m.lookahead ≠ .closing)
      (hkind : m.unexpected = .ok kind) :
      Run (.close inner) depth m [⟨.fail kind, m⟩] inner (m.fail kind)
  -- whole patterns
  | pattern {depth m moments body m₁ others node m'}
      (hbody : Run (.rule .regexp) 0 m moments body m₁)
      (hfinish : Run (.finish body) depth m₁ others node m') :
      Run .pattern depth m (moments ++ others) node m'
  | finish_done {depth m body} (hdone : m.done = true) : Run (.finish body) depth m [] body m
  | finish_end {depth m body} (hdone : m.done = false) (htoken : m.lookahead = .finish) :
      Run (.finish body) depth m [] body m
  | finish_closing {depth m body} (hdone : m.done = false) (htoken : m.lookahead = .closing) :
      Run (.finish body) depth m [⟨.fail .unmatchedClose, m⟩] body (m.fail .unmatchedClose)
  | finish_unexpected {depth m body kind} (hdone : m.done = false) (hend : m.lookahead ≠ .finish)
      (hclosing : m.lookahead ≠ .closing) (hkind : m.unexpected = .ok kind) :
      Run (.finish body) depth m [⟨.fail kind, m⟩] body (m.fail kind)

-- ---------------------------------------------------------------------------
-- Rules
-- ---------------------------------------------------------------------------

/-- The rule for groups where `room` more levels are allowed. -/
def groupAt : (room : Nat) → GroupRule
  | 0 => tooDeep
  | room + 1 => groupOf (regexp room)

/-- A rule of the grammar, given the rule for groups. -/
def ruleFor (group : GroupRule) : Nonterminal → OperandRule
  | .regexp => expression group
  | .chain .amp => interleaving group
  | .chain .bar => alternation group
  | .concatenation => concatenation group
  | .repetition => repetition group
  | .atom => atom group

end Machine

end Parser

end PatternAutomata
