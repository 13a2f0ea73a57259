import PatternAutomata.Automaton.Interleave
import PatternAutomata.ParseTree
import PatternAutomata.ParseTree.Slots

/-!
# Pattern automata — Thompson's construction

A parse tree becomes a nondeterministic automaton along its list of nodes. Each
node makes a fragment, an automaton of its own with a start and final states, out
of the fragments of its children. The end marker reads nothing, so it makes the
same fragment as `ε`.

Fresh states are labelled `q0`, `q1`, … throughout one construction, so that
fragments can be merged without renaming.
-/

namespace PatternAutomata

/-- What a construction remembers between its fragments: how many fresh states there were,
so that no two fragments have a label in common, and the log. -/
structure Workshop where
  /-- The number of the next fresh state. -/
  next : Nat := 0
  events : List Event := []
  deriving DecidableEq, Repr

namespace Workshop

/-- A step of a construction. -/
abbrev Build (β : Type) : Type := StateT Workshop (Except Fault) β

/-- Adds a state whose label no other fragment has. -/
def fresh (n : Nfa) : Build (Nfa × Nat) := do
  let w ← get
  set { w with next := w.next + 1 }
  return n.addState s!"q{w.next}"

def log (e : Event) : Build Unit :=
  modify fun w => { w with events := w.events ++ [e] }

/-- The start of a fragment. -/
def startOf (n : Nfa) : Except Fault Nat :=
  n.start.elim (.error .fragmentWithoutStart) .ok

/-- Adds `ε` transitions from all of `sources` to `target`. -/
def joinAll (n : Nfa) (sources : List Nat) (target : Nat) : Except Fault Nfa :=
  sources.foldlM (fun n s => n.addTransition s .epsilon target) n

/-- One transition, from the start to the final state. -/
def atom (a : Symbol) : Build Nfa := do
  let (n, s) ← fresh {}
  let (n, f) ← fresh n
  let n ← n.addTransition s a f
  let n ← n.setStart s
  n.addFinal f

/-- A new start and a new final state around `n`, with `ε` transitions to skip it and to
run it again. -/
def star (n : Nfa) : Build Nfa := do
  let inner ← startOf n
  let (n, s) ← fresh n
  let (n, f) ← fresh n
  let finals := n.finals.toList
  let n ← finals.foldlM
    (fun n old => do (← n.addTransition old .epsilon inner).addTransition old .epsilon f)
    n.clearFinals
  let n ← n.addTransition s .epsilon inner
  let n ← n.addTransition s .epsilon f
  let n ← n.setStart s
  n.addFinal f

/-- The final states of `left` lead to the start of `right`, whose final states remain.
The start is that of `left`, which merging keeps. -/
def concat (left right : Nfa) : Build Nfa := do
  let rightStart ← startOf right
  let (n, offset) ← left.absorb right
  let finals := n.finals.toList
  -- the final states are those of `left` still, as merging leaves them alone
  let n ← joinAll n.clearFinals finals (rightStart + offset)
  right.finals.toList.foldlM (fun n f => n.addFinal (f + offset)) n

/-- A new start before both fragments, and a new final state after them. -/
def union (left right : Nfa) : Build Nfa := do
  let leftStart ← startOf left
  let rightStart ← startOf right
  let (n, offset) ← left.absorb right
  let (n, s) ← fresh n
  let (n, f) ← fresh n
  -- those of `left` kept their numbers, those of `right` were raised
  let finals := n.finals.toList ++ right.finals.toList.map (· + offset)
  let n ← joinAll n.clearFinals finals f
  let n ← n.addTransition s .epsilon leftStart
  let n ← n.addTransition s .epsilon (rightStart + offset)
  let n ← n.setStart s
  n.addFinal f

/-- The product of both fragments. Its states have labels of their own, made of the labels
of the pairs. -/
def shuffle (left right : Nfa) : Build Nfa := do
  let n ← left.interleave right
  log (left.interleaveEvent right n)
  return n

-- ---------------------------------------------------------------------------
-- Along the nodes
-- ---------------------------------------------------------------------------

/-- Takes the fragment of a child. -/
def takeChild (slots : Slots Nfa) (parent child : Nat) : Except Fault (Nfa × Slots Nfa) :=
  match slots.take child with
  | (some n, rest) => .ok (n, rest)
  | (none, _) => .error (.lostChild parent child)

/-- Takes the fragments of two children and puts them together. -/
def binary (combine : Nfa → Nfa → Build Nfa) (slots : Slots Nfa) (id l r : Nat) :
    Build (Slots Nfa) := do
  let (left, slots) ← takeChild slots id l
  let (right, slots) ← takeChild slots id r
  return slots.push (← combine left right)

/-- Makes the fragment of the node at place `id`. -/
def node (slots : Slots Nfa) (id : Nat) : Node → Build (Slots Nfa)
  | .char c _ => do return slots.push (← atom (.char c))
  | .epsilon | .endMarker _ => do return slots.push (← atom .epsilon)
  | .concat l r => binary concat slots id l r
  | .union l r => binary union slots id l r
  | .shuffle l r => binary shuffle slots id l r
  | .star e => do
    let (body, slots) ← takeChild slots id e
    return slots.push (← star body)

/-- Makes the fragments of nodes in turn, the first being at place `id`. -/
def nodes (slots : Slots Nfa) (id : Nat) : List Node → Build (Slots Nfa)
  | [] => return slots
  | n :: rest => do nodes (← node slots id n) (id + 1) rest

/-- The fragment of the root. -/
def tree (t : ParseTree) : Build Nfa := do
  let slots ← nodes #[] 0 t.nodes
  let (n, _) ← takeChild slots t.root t.root
  log (.thompsonBuilt t.pattern n.stateCount n.transitions.length)
  return n

end Workshop

namespace ParseTree

/-- The Thompson automaton of a tree, and the log of its construction. -/
def thompsonLogged (t : ParseTree) : Except Fault (Nfa × List Event) := do
  let (n, w) ← (Workshop.tree t).run {}
  return (n, w.events)

/-- The Thompson automaton of a tree. -/
def thompson (t : ParseTree) : Except Fault Nfa := do
  return (← t.thompsonLogged).1

end ParseTree

end PatternAutomata
