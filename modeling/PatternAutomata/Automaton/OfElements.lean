import PatternAutomata.Automaton.Dfa

/-!
# Pattern automata — deterministic automata of explored elements

A deterministic automaton often stands for a search: its states are the elements
found, in the order in which they were found, and its transitions are the moves
that were found out at each of them. A state is made by its label, so elements of
one label share a state.
-/

namespace PatternAutomata

/-- How the elements of a search become states. -/
structure StateNaming (α : Type) where
  label : α → Except Fault String
  isFinal : α → Bool

namespace Dfa

variable {α : Type}

/-- Adds the state of an element, final if the element is. -/
def addElement (naming : StateNaming α) (d : Dfa) (x : α) : Except Fault Dfa := do
  let (d, s) := d.addState (← naming.label x)
  if naming.isFinal x then d.addFinal s else return d

/-- Adds the transition on `c` between the states of two elements. -/
def linkElements (naming : StateNaming α) (source : String) (d : Dfa) (move : Char × α) :
    Except Fault Dfa := do
  let (d, s) := d.addState source
  let (d, t) := d.addState (← naming.label move.2)
  d.addTransition s move.1 t

/-- Adds the transitions of an element's moves. -/
def addMoves (naming : StateNaming α) (d : Dfa) (visit : α × List (Char × α)) :
    Except Fault Dfa := do
  visit.2.foldlM (linkElements naming (← naming.label visit.1)) d

/-- The automaton of the elements that were found, each with its moves, which starts at the
first. -/
def ofElements (alphabet : SortedSet Char) (naming : StateNaming α)
    (visits : List (α × List (Char × α))) : Except Fault Dfa := do
  let states ← visits.foldlM (fun d visit => addElement naming d visit.1) { alphabet := alphabet }
  let started ← match visits with
    | [] => pure states
    | (x, _) :: _ => states.setStart (states.addState (← naming.label x)).2
  visits.foldlM (addMoves naming) started

end Dfa

end PatternAutomata
