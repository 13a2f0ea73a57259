import PatternAutomata.Automaton.Simulation
import PatternAutomata.Event

/-!
# Pattern automata — interleaving

The product that runs two automata side by side, one moving at a time. Its
states are the pairs of states that can be reached; in a pair either operand
may move alone, reading a letter or nothing, and a pair is final iff both its
members are. Each move is tied to the operand that was held.

A state is made by its label, which shows the labels of the pair.
-/

namespace PatternAutomata

namespace Nfa

/-- The transitions out of `s`, none if there is no such state. -/
def movesOf (n : Nfa) (s : Nat) : List (Symbol × Nat) :=
  rowMoves (n.rows.getD s ∅)

theorem mem_allTargets_of_mem_movesOf {n : Nfa} {s : Nat} {m : Symbol × Nat}
    (h : m ∈ n.movesOf s) : m.2 ∈ n.allTargets :=
  mem_allTargets_of_mem_successors (a := m.1) (s := s) (mem_rowMoves.mp h)

/-- A step of a product: what it reads, the pair it leads to, and the operand that is held. -/
structure PairMove where
  symbol : Symbol
  target : Nat × Nat
  held : Side
  deriving DecidableEq, Repr

/-- The steps of a pair that its members' transitions make, those of the left one first: one
member moves, and the other one is held. -/
def besides (p : Nat × Nat) (lefts rights : List (Symbol × Nat)) : List PairMove :=
  lefts.map (fun m => { symbol := m.1, target := (m.2, p.2), held := .right }) ++
    rights.map fun m => { symbol := m.1, target := (p.1, m.2), held := .left }

/-- The steps of either operand alone, none if one of them has no such state. -/
def pairMoves (left right : Nfa) (p : Nat × Nat) : List PairMove :=
  if p.1 < left.rows.size ∧ p.2 < right.rows.size then
    besides p (left.movesOf p.1) (right.movesOf p.2)
  else []

/-- The pairs that one step leads to, for the search. -/
def nextPairs (left right : Nfa) (p : Nat × Nat) : List (Nat × Nat) :=
  (pairMoves left right p).map (·.target)

/-- A member of a pair that is reached is a target of its operand or stood still, so there
are finitely many such pairs. -/
theorem finiteRange_nextPairs (left right : Nfa) : FiniteRange (nextPairs left right) := by
  let lefts := List.range left.rows.size ++ left.allTargets
  let rights := List.range right.rows.size ++ right.allTargets
  refine ⟨lefts.flatMap fun s => rights.map (s, ·), fun p q hq => ?_⟩
  obtain ⟨move, hmove, rfl⟩ := List.mem_map.mp hq
  have hpair : ∀ s ∈ lefts, ∀ t ∈ rights, (s, t) ∈ lefts.flatMap fun s => rights.map (s, ·) :=
    fun s hs t ht => List.mem_flatMap.mpr ⟨s, hs, List.mem_map.mpr ⟨t, ht, rfl⟩⟩
  unfold pairMoves at hmove
  split at hmove
  · rename_i hp
    -- the left member moves and the right one is held, or the other way round
    rcases List.mem_append.mp hmove with hmove | hmove
    · obtain ⟨m, hm, rfl⟩ := List.mem_map.mp hmove
      exact hpair _ (List.mem_append_right _ (mem_allTargets_of_mem_movesOf hm)) _
        (List.mem_append_left _ (List.mem_range.mpr hp.2))
    · obtain ⟨m, hm, rfl⟩ := List.mem_map.mp hmove
      exact hpair _ (List.mem_append_left _ (List.mem_range.mpr hp.1)) _
        (List.mem_append_right _ (mem_allTargets_of_mem_movesOf hm))
  · exact absurd hmove List.not_mem_nil

/-- The pairs that can be reached, the pair of the start states first. -/
def reachedPairs (left right : Nfa) (start : Nat × Nat) : List (Nat × Nat) :=
  explore (nextPairs left right) (finiteRange_nextPairs left right) [start]

/-- The label of a pair, with both labels in it. Labels may hold commas and parentheses
themselves, so two pairs can have the same one. -/
def pairLabel (left right : Nfa) (p : Nat × Nat) : Except Fault String := do
  let l ← left.label p.1
  let r ← right.label p.2
  return s!"({l},{r})"

/-- Adds the state of a pair, final if both its members are. -/
def addPair (left right : Nfa) (n : Nfa) (p : Nat × Nat) : Except Fault Nfa := do
  let (n, s) := n.addState (← pairLabel left right p)
  if left.isFinal p.1 && right.isFinal p.2 then n.addFinal s else return n

/-- Adds the transition of a step from the pair labelled `source`, and ties it. -/
def linkPairs (left right : Nfa) (source : String) (n : Nfa) (move : PairMove) :
    Except Fault Nfa := do
  let (n, s) := n.addState source
  let (n, t) := n.addState (← pairLabel left right move.target)
  return (← n.addTransition s move.symbol t).recordTie
    { source := s, target := t, held := move.held }

/-- The steps of a pair as the construction reads them, refused if one of the operands has no
such state. -/
def readMoves (left right : Nfa) (p : Nat × Nat) : Except Fault (List PairMove) := do
  return besides p (← left.moves p.1) (← right.moves p.2)

/-- Adds the transitions of all steps of a pair. -/
def addPairMoves (left right : Nfa) (n : Nfa) (p : Nat × Nat) : Except Fault Nfa := do
  let source ← pairLabel left right p
  (← readMoves left right p).foldlM (linkPairs left right source) n

/-- The product that starts at the pair `start`. -/
def interleaveFrom (left right : Nfa) (start : Nat × Nat) : Except Fault Nfa := do
  let pairs := reachedPairs left right start
  let states ← pairs.foldlM (addPair left right)
    { alphabet := left.alphabet ∪ right.alphabet }
  let started ← states.setStart (states.addState (← pairLabel left right start)).2
  pairs.foldlM (addPairMoves left right) started

/-- The automaton of the interleavings of a word of `left` with a word of `right`. -/
def interleave (left right : Nfa) : Except Fault Nfa :=
  match left.start, right.start with
  | some l, some r => interleaveFrom left right (l, r)
  | _, _ => .error .interleaveWithoutStart

/-- The log of `interleave`. -/
def interleaveEvent (left right product : Nfa) : Event :=
  .interleaved left.stateCount right.stateCount product.stateCount

end Nfa

end PatternAutomata
