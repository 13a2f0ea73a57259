import PatternAutomata.Automaton.Labels
import PatternAutomata.Fault
import PatternAutomata.SortedSet

/-!
# Pattern automata — state tables

What all automata share: states with labels that tell them apart, the start
state, the final states, and the alphabet. A state is known by its number, that
of its label. Transitions are left to the automaton, as they depend on whether it
is deterministic.
-/

namespace PatternAutomata

/-- The states of an automaton with all that is said of them: their labels, which of them
is the start, and which are final; and the letters that the automaton knows. Symbols may
be added to the alphabet that no transition reads. -/
structure StateTable where
  labels : Labels := ∅
  start : Option Nat := none
  finals : SortedSet Nat := ∅
  alphabet : SortedSet Char := ∅
  deriving DecidableEq

namespace StateTable

/-- How many states there are, which is also the number of the next one. -/
def stateCount (t : StateTable) : Nat := t.labels.size

/-- The state with this label. -/
def find? (t : StateTable) (label : String) : Option Nat :=
  t.labels.find? label

/-- The label of a state, refused if there is no such state. -/
def label (t : StateTable) (s : Nat) : Except Fault String :=
  (t.labels.get? s).elim (.error .outOfRange) .ok

/-- Adds a state whose label is not in use. -/
def push (t : StateTable) (label : String) (h : t.find? label = none) : StateTable :=
  { t with labels := t.labels.push label h }

/-- The state with this label, which is a new one if the label is not in use. -/
def add (t : StateTable) (label : String) : StateTable × Nat :=
  match h : t.find? label with
  | some s => (t, s)
  | none =>
    let s := t.stateCount
    (t.push label h, s)

/-- Makes `s` the start, in the place of the one before, if there is such a state. -/
def setStart (t : StateTable) (s : Nat) : Except Fault StateTable :=
  if s < t.stateCount then .ok { t with start := some s } else .error (.unknownStart s)

def addFinal (t : StateTable) (s : Nat) : Except Fault StateTable :=
  if s < t.stateCount then .ok { t with finals := t.finals.insert s }
  else .error (.unknownFinal s)

def isFinal (t : StateTable) (s : Nat) : Bool := s ∈ t.finals

/-- Makes `s` a state that is not final. -/
def removeFinal (t : StateTable) (s : Nat) : StateTable :=
  { t with finals := t.finals.erase s }

/-- Makes no state final. -/
def clearFinals (t : StateTable) : StateTable := { t with finals := ∅ }

/-- Adds a letter to the alphabet. Letters are never taken out. -/
def addSymbol (t : StateTable) (c : Char) : StateTable :=
  { t with alphabet := t.alphabet.insert c }

def hasSymbol (t : StateTable) (c : Char) : Bool := c ∈ t.alphabet

/-- Appends the states of `other`, whose numbers are raised by the number of states
before them; no label may be in use in both. The alphabets are united; the start and the
final states of `other` are left to the caller. -/
def absorb (t other : StateTable) : Except Fault StateTable :=
  match h : t.labels.firstShared? other.labels with
  | some label => .error (.labelInUse label)
  | none => .ok { t with
      labels := t.labels.append other.labels h
      alphabet := t.alphabet ∪ other.alphabet }

end StateTable

end PatternAutomata
