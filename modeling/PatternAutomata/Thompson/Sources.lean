import PatternAutomata.Thompson

/-!
# Pattern automata — where positions are in Thompson's automaton

The construction makes a fragment of its own for every position, and what is
made later renumbers the states of fragments, but keeps their labels as long as
nothing is interleaved. So a position can be found again in the whole automaton,
and a set of states says which positions are about to be read.
-/

namespace PatternAutomata

namespace ParseTree

/-- The place of the leaf of position `p`. -/
def leafPlace? (t : ParseTree) (p : Nat) : Option Nat :=
  t.nodes.findIdx? fun node => decide (node.position? = some p)

/-- The fragment of the leaf of position `p`, as the construction has just made it. -/
def atomOf (t : ParseTree) (p : Nat) : Except Fault (Option Nfa) :=
  match t.leafPlace? p with
  | none => .ok none
  | some i => do
    let (slots, _) ← (Workshop.nodes #[] 0 (t.nodes.take (i + 1))).run {}
    return slots.back?.join

/-- The state of `n` that has the label with which the fragment of position `p` starts. -/
def sourceOf (t : ParseTree) (n : Nfa) (p : Nat) : Except Fault (Option Nat) := do
  match ← t.atomOf p with
  | none => return none
  | some atom =>
    match atom.start with
    | none => return none
    | some s => return n.find? (← atom.label s)

/-- Is the state in front of position `p` in the set? -/
def holdsSource (t : ParseTree) (n : Nfa) (set : SortedSet Nat) (p : Nat) : Bool :=
  match t.sourceOf n p with
  | .ok (some x) => x ∈ set
  | _ => false

/-- The positions in front of which there is a state of the set. -/
def positionsHeld (t : ParseTree) (n : Nfa) (set : SortedSet Nat) : SortedSet Nat :=
  .ofList ((List.range' 1 t.endPosition).filter (t.holdsSource n set))

end ParseTree

end PatternAutomata
