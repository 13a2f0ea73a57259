import PatternAutomata.Automaton.StateTable
import PatternAutomata.Exploration
import PatternAutomata.Rows
import PatternAutomata.SortedMap

/-!
# Pattern automata — deterministic automata

From each state, a character leads to one state or nowhere, and nothing is read
for free. Whether two automata accept the same words is found out by running
them side by side over all pairs of states that some word leads to; where one of
them has no transition, it is in no state and stays there.
-/

namespace PatternAutomata

/-- A deterministic automaton: its states, and for each a row that leads to one target by
every letter, at most. -/
structure Dfa extends StateTable where
  rows : Array (SortedMap Char Nat) := #[]
  deriving DecidableEq

namespace Dfa

/-- The transitions out of `s`. -/
def row (d : Dfa) (s : Nat) : Except Fault (SortedMap Char Nat) :=
  (d.rows[s]?).elim (.error .outOfRange) .ok

/-- The state with this label, which is a new one if the label is not in use. -/
def addState (d : Dfa) (label : String) : Dfa × Nat :=
  match h : d.find? label with
  | some s => (d, s)
  | none =>
    let s := d.stateCount
    ({ d with toStateTable := d.push label h, rows := d.rows.push ∅ }, s)

def setStart (d : Dfa) (s : Nat) : Except Fault Dfa := do
  return { d with toStateTable := ← d.toStateTable.setStart s }

def addFinal (d : Dfa) (s : Nat) : Except Fault Dfa := do
  return { d with toStateTable := ← d.toStateTable.addFinal s }

def removeFinal (d : Dfa) (s : Nat) : Dfa :=
  { d with toStateTable := d.toStateTable.removeFinal s }

def addSymbol (d : Dfa) (c : Char) : Dfa :=
  { d with toStateTable := d.toStateTable.addSymbol c }

-- ---------------------------------------------------------------------------
-- Transitions
-- ---------------------------------------------------------------------------

/-- Takes the place of the transition on `c` from `source`, if there was one, and notes
`c` in the alphabet. The target is looked at before the source. -/
def addTransition (d : Dfa) (source : Nat) (c : Char) (target : Nat) : Except Fault Dfa :=
  if d.rows.size ≤ target then .error (.unknownTarget target)
  else do
    let row ← d.row source
    return { d with
      alphabet := d.alphabet.insert c
      rows := d.rows.setIfInBounds source (row.insert c target) }

/-- Where `s` leads on `c`. -/
def next (d : Dfa) (s : Nat) (c : Char) : Except Fault (Option Nat) := do
  return (← d.row s).find? c

/-- Takes a transition out, if it is there, and says whether it was. One on the same
letter to another target stays. -/
def deleteTransition (d : Dfa) (source : Nat) (c : Char) (target : Nat) :
    Except Fault (Dfa × Bool) := do
  let row ← d.row source
  if row.find? c = some target then
    return ({ d with rows := d.rows.setIfInBounds source (row.erase c) }, true)
  else return (d, false)

def targets (d : Dfa) (s : Nat) (c : Char) : Except Fault (List Nat) := do
  return (← d.next s c).toList

def hasTransitionOn (d : Dfa) (s : Nat) (c : Char) : Except Fault Bool := do
  return !(← d.targets s c).isEmpty

/-- All transitions, by source and character. -/
def transitions (d : Dfa) : List (Nat × Char × Nat) :=
  d.rows.toList.zipIdx.flatMap fun (row, s) => row.entries.map (s, ·)

-- ---------------------------------------------------------------------------
-- Runs
-- ---------------------------------------------------------------------------

/-- The state after a word from `s?`; once there is none, there is none. -/
def run (d : Dfa) (s? : Option Nat) : List Char → Except Fault (Option Nat)
  | [] => .ok s?
  | c :: rest =>
    match s? with
    | none => .ok none
    | some s => do d.run (← d.next s c) rest

def isFinal? (d : Dfa) (s? : Option Nat) : Bool := s?.any d.isFinal

/-- Is a final state reached by the word? A word with a letter that leads nowhere is
rejected, also if the letter is in no alphabet. -/
def accepts (d : Dfa) (word : String) : Except Fault Bool := do
  return d.isFinal? (← d.run d.start word.toList)

-- ---------------------------------------------------------------------------
-- Equivalence
-- ---------------------------------------------------------------------------

/-- A state of either automaton, `none` standing for no state. -/
abbrev Pair : Type := Option Nat × Option Nat

/-- Where a state leads on `c`, a state that does not exist leading nowhere. -/
def nextOf (d : Dfa) (s? : Option Nat) (c : Char) : Option Nat :=
  s?.bind fun s => (d.rows.getD s ∅).find? c

/-- All that `nextOf` can answer. -/
def nextRange (d : Dfa) : List (Option Nat) :=
  none :: d.rows.toList.flatMap fun row => row.entries.map (some ·.2)

/-- The targets that a run can meet are those of the transitions. They are finitely many,
whatever the letters are. -/
theorem nextOf_mem_nextRange (d : Dfa) (s? : Option Nat) (c : Char) :
    d.nextOf s? c ∈ d.nextRange := by
  cases h : d.nextOf s? c with
  | none => exact List.mem_cons_self
  | some t =>
    obtain ⟨s, rfl, hf⟩ := Option.bind_eq_some_iff.mp h
    refine List.mem_cons_of_mem _ (List.mem_flatMap.mpr ?_)
    rcases Rows.getD_mem_or_eq d.rows s ∅ with hrow | hrow
    · exact ⟨_, hrow, List.mem_map.mpr ⟨(c, t), SortedMap.find?_eq_some_iff.mp hf, rfl⟩⟩
    · -- a state that does not exist leads nowhere
      rw [hrow] at hf
      cases hf

/-- The pairs that some letters lead to. -/
def nextPairs (a b : Dfa) (letters : List Char) (p : Pair) : List Pair :=
  letters.map fun c => (a.nextOf p.1 c, b.nextOf p.2 c)

/-- The pairs that letters lead to are finitely many, so the search over pairs ends. -/
theorem finiteRange_nextPairs (a b : Dfa) (letters : List Char) :
    FiniteRange (nextPairs a b letters) := by
  refine ⟨a.nextRange.flatMap fun p => b.nextRange.map (p, ·), fun p q hq => ?_⟩
  obtain ⟨c, _, rfl⟩ := List.mem_map.mp hq
  exact List.mem_flatMap.mpr ⟨_, a.nextOf_mem_nextRange p.1 c,
    List.mem_map.mpr ⟨_, b.nextOf_mem_nextRange p.2 c, rfl⟩⟩

/-- The letters of both alphabets. -/
def letters (a b : Dfa) : List Char := (a.alphabet ∪ b.alphabet).toList

/-- All pairs of states that some word leads to. -/
def reachedPairs (a b : Dfa) : List Pair :=
  explore (nextPairs a b (letters a b)) (finiteRange_nextPairs a b _) [(a.start, b.start)]

/-- Do the members of a pair disagree on being final? -/
def disagree (a b : Dfa) (p : Pair) : Bool := a.isFinal? p.1 != b.isFinal? p.2

/-- Is `s?` no state, or one that exists? -/
def exists? (d : Dfa) (s? : Option Nat) : Bool := s?.all (· < d.rows.size)

/-- A pair settles whether the automata are equivalent if its members disagree, or if one of
them has no transitions to look at since it does not exist. -/
def settles (a b : Dfa) (p : Pair) : Bool :=
  disagree a b p || !((a.exists? p.1 && b.exists? p.2) || (letters a b).isEmpty)

/-- The first pair that settles the question. -/
def settlingPair? (a b : Dfa) : Option Pair :=
  findReachable? (nextPairs a b (letters a b)) (finiteRange_nextPairs a b _)
    [(a.start, b.start)] (settles a b)

/-- The search stops at the first pair that settles the question; that pair is also the
first such one of the whole search. -/
theorem settlingPair?_eq (a b : Dfa) :
    settlingPair? a b = (reachedPairs a b).find? (settles a b) := findReachable?_eq

/-- Do both automata accept the same words? No, if the pair that settles the question
disagrees; if no pair settles it, then no word tells the automata apart. A pair with a
state that does not exist is refused, as its transitions cannot be read. -/
def equivalent (a b : Dfa) : Except Fault Bool :=
  match settlingPair? a b with
  | none => .ok true
  | some p => if disagree a b p then .ok false else .error .outOfRange

end Dfa

end PatternAutomata
