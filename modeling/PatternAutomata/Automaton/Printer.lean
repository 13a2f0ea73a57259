import PatternAutomata.Automaton.Dfa
import PatternAutomata.Automaton.Nfa

/-!
# Pattern automata — printed automata

Both kinds of automata are described in the same way: a line each for the
states, the start, the final states and the alphabet, and then a line per
transition, with the labels of its states.
-/

namespace PatternAutomata

namespace StateTable

/-- The labels of some states, with spaces between them. -/
def labelLine (t : StateTable) (states : List Nat) : Except Fault String := do
  return " ".intercalate (← states.mapM t.label)

/-- The line of a transition, with the text of what it reads. -/
def transitionLine (t : StateTable) (source : Nat) (reads : String) (target : Nat) :
    Except Fault String := do
  let sourceLabel ← t.label source
  let targetLabel ← t.label target
  return s!"    {sourceLabel} -{reads}-> {targetLabel}\n"

/-- The line of the start state, which ends early if there is none. -/
def startLine (t : StateTable) : Except Fault String :=
  match t.start with
  | some s => do return "start: " ++ (← t.label s)
  | none => .ok "start:"

/-- All that there is to say of an automaton, in lines. The transitions are given with the
texts of what they read, so that this is the same for both kinds. -/
def describe (t : StateTable) (transitions : List (Nat × String × Nat)) :
    Except Fault String := do
  let states ← t.labelLine (List.range t.stateCount)
  let start ← t.startLine
  let finals ← t.labelLine t.finals.toList
  let alphabet := " ".intercalate (t.alphabet.toList.map fun c => String.ofList [c])
  let lines ← transitions.mapM fun (source, reads, target) =>
    t.transitionLine source reads target
  return s!"states: {states}\n{start}\nfinals: {finals}\nalphabet: {alphabet}\n" ++
    "transitions:\n" ++ String.join lines

end StateTable

/-- The description of a nondeterministic automaton; ties are not described. -/
def Nfa.describe (n : Nfa) : Except Fault String :=
  n.toStateTable.describe (n.transitions.map fun (s, a, t) => (s, a.text, t))

def Dfa.describe (d : Dfa) : Except Fault String :=
  d.toStateTable.describe (d.transitions.map fun (s, c, t) => (s, String.ofList [c], t))

end PatternAutomata
