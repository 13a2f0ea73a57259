import PatternAutomata.Direct

/-!
# Pattern automata — runs of operations

A program makes automata, edits them state by state, copies them, puts two of
them together and runs constructions. What it has made so far is its store, and
an `Operation` is one of its steps; the automata that a step reads are named by
their place in the store. They stay there: a program that gives an operand away
does not name it again.
-/

namespace PatternAutomata

/-- A change of one automaton. Both kinds of automata have the same surface, and only differ in
what a transition reads. -/
inductive Edit (σ : Type) where
  | addState (label : String)
  | setStart (s : Nat)
  | addFinal (s : Nat)
  | removeFinal (s : Nat)
  | addSymbol (c : Char)
  | addTransition (source : Nat) (a : σ) (target : Nat)
  | deleteTransition (source : Nat) (a : σ) (target : Nat)

/-- The change, made to a nondeterministic automaton. What an operation answers besides
the automaton, a state or whether there was such a transition, is dropped: it changes
nothing. -/
def Nfa.edit (n : Nfa) : Edit Symbol → Except Fault Nfa
  | .addState label => .ok (n.addState label).1
  | .setStart s => n.setStart s
  | .addFinal s => n.addFinal s
  | .removeFinal s => .ok (n.removeFinal s)
  | .addSymbol c => .ok (n.addSymbol c)
  | .addTransition source a target => n.addTransition source a target
  | .deleteTransition source a target => do return (← n.deleteTransition source a target).1

def Dfa.edit (d : Dfa) : Edit Char → Except Fault Dfa
  | .addState label => .ok (d.addState label).1
  | .setStart s => d.setStart s
  | .addFinal s => d.addFinal s
  | .removeFinal s => .ok (d.removeFinal s)
  | .addSymbol c => .ok (d.addSymbol c)
  | .addTransition source c target => d.addTransition source c target
  | .deleteTransition source c target => do return (← d.deleteTransition source c target).1

/-- A step of a program. Numbers are places in the store. -/
inductive Operation where
  | newNfa
  | newDfa
  | copyNfa (i : Nat)
  | copyDfa (i : Nat)
  | editNfa (i : Nat) (edit : Edit Symbol)
  | editDfa (i : Nat) (edit : Edit Char)
  | recordTie (i : Nat) (tie : Tie)
  | absorb (i other : Nat)
  | interleave (left right : Nat)
  | determinize (i : Nat)
  | thompson (t : ParseTree)
  | direct (t : ParseTree)

/-- The automata that were made so far, in the order in which they were made. Both kinds
are numbered from 0, each on its own. -/
structure Store where
  nfas : Array Nfa := #[]
  dfas : Array Dfa := #[]

namespace Store

/-- The nondeterministic automaton at place `i`; the step is refused if there is none. -/
def nfa (store : Store) (i : Nat) : Except Fault Nfa :=
  (store.nfas[i]?).elim (.error .outOfRange) .ok

def dfa (store : Store) (i : Nat) : Except Fault Dfa :=
  (store.dfas[i]?).elim (.error .outOfRange) .ok

/-- A nondeterministic automaton is made: it goes behind the others. -/
def pushNfa (store : Store) (n : Nfa) : Store := { store with nfas := store.nfas.push n }

def pushDfa (store : Store) (d : Dfa) : Store := { store with dfas := store.dfas.push d }

/-- The automaton at place `i` is changed: `n` takes its place. -/
def putNfa (store : Store) (i : Nat) (n : Nfa) : Store :=
  { store with nfas := store.nfas.setIfInBounds i n }

def putDfa (store : Store) (i : Nat) (d : Dfa) : Store :=
  { store with dfas := store.dfas.setIfInBounds i d }

/-- What is made is put behind the others, and what is changed takes the place of what it was. -/
def exec (store : Store) : Operation → Except Fault Store
  | .newNfa => return store.pushNfa {}
  | .newDfa => return store.pushDfa {}
  | .copyNfa i => do return store.pushNfa (← store.nfa i)
  | .copyDfa i => do return store.pushDfa (← store.dfa i)
  | .editNfa i edit => do return store.putNfa i (← (← store.nfa i).edit edit)
  | .editDfa i edit => do return store.putDfa i (← (← store.dfa i).edit edit)
  | .recordTie i tie => do return store.putNfa i ((← store.nfa i).recordTie tie)
  | .absorb i other => do return store.putNfa i (← (← store.nfa i).absorb (← store.nfa other)).1
  | .interleave left right => do
    return store.pushNfa (← (← store.nfa left).interleave (← store.nfa right))
  | .determinize i => do return store.pushDfa (← Dfa.ofNfa (← store.nfa i))
  | .thompson t => do return store.pushNfa (← t.thompson)
  | .direct t => do return store.pushDfa (← t.direct)

/-- Runs operations in turn, up to the first that fails. -/
def run (store : Store) (operations : List Operation) : Except Fault Store :=
  operations.foldlM exec store

end Store

end PatternAutomata
