import PatternAutomata.Automaton.Nfa
import PatternAutomata.Exploration
import PatternAutomata.Rows

/-!
# Pattern automata — running a nondeterministic automaton

An automaton is run by following all its paths at once: after some letters it
can be in any state of a set, which is closed under `ε`. `Nfa.Path` is what a
single path is.

`closure` and `after` are total; a state that does not exist has no transitions.
The operations that callers see refuse sets that hold such a state.
-/

namespace PatternAutomata

namespace Nfa

/-- `n.Path s w t`: the transitions of a path from `s` to `t` read the word `w`. -/
inductive Path (n : Nfa) : Nat → List Char → Nat → Prop
  | refl (s : Nat) : Path n s [] s
  | step {s t u : Nat} {a : Symbol} {w : List Char} :
      (s, a, t) ∈ n.transitions → Path n t w u → Path n s (a.reads ++ w) u

/-- The word leads from the start to a final state. -/
def Accepting (n : Nfa) (w : List Char) : Prop :=
  ∃ s, n.start = some s ∧ ∃ t ∈ n.finals, n.Path s w t

-- ---------------------------------------------------------------------------
-- Sets of states
-- ---------------------------------------------------------------------------

/-- Where `s` leads on `a`; nowhere, if there is no such state. -/
def successors (n : Nfa) (a : Symbol) (s : Nat) : List Nat :=
  (rowTargets (n.rows.getD s ∅) a).toList

/-- All targets of transitions. -/
def allTargets (n : Nfa) : List Nat :=
  n.rows.toList.flatMap fun row => (rowMoves row).map (·.2)

/-- The moves of a row are its targets, symbol by symbol. -/
theorem mem_rowMoves {row : SortedMap Symbol (SortedSet Nat)} {a : Symbol} {t : Nat} :
    (a, t) ∈ rowMoves row ↔ t ∈ rowTargets row a := by
  simp only [rowMoves, List.mem_flatMap, List.mem_map, Prod.mk.injEq, Prod.exists]
  constructor
  · rintro ⟨b, targets, he, u, hu, rfl, rfl⟩
    simpa [rowTargets, SortedMap.find?_eq_some_iff.mpr he] using hu
  · intro ht
    cases hf : row.find? a with
    | none => simp [rowTargets, hf] at ht
    | some targets =>
      exact ⟨a, targets, SortedMap.find?_eq_some_iff.mp hf, t,
        by simpa [rowTargets, hf] using ht, rfl, rfl⟩

theorem mem_allTargets_of_mem_successors {n : Nfa} {a : Symbol} {s t : Nat}
    (h : t ∈ n.successors a s) : t ∈ n.allTargets := by
  rcases Rows.getD_mem_or_eq n.rows s ∅ with hrow | hrow
  · exact List.mem_flatMap.mpr ⟨_, hrow, List.mem_map.mpr ⟨(a, t), mem_rowMoves.mpr h, rfl⟩⟩
  · rw [successors, hrow] at h
    exact absurd h List.not_mem_nil

/-- Every successor is the target of a transition, so following one symbol comes to an
end. -/
theorem finiteRange_successors (n : Nfa) (a : Symbol) : FiniteRange (n.successors a) :=
  ⟨n.allTargets, fun _ _ => mem_allTargets_of_mem_successors⟩

/-- The states that `ε` leads to from `set`, in any number of steps. -/
def closure (n : Nfa) (set : SortedSet Nat) : SortedSet Nat :=
  .ofList (explore (n.successors .epsilon) (n.finiteRange_successors .epsilon) set.toList)

/-- The states that can be reached from `set` by reading `c`. -/
def after (n : Nfa) (set : SortedSet Nat) (c : Char) : SortedSet Nat :=
  n.closure (.ofList (set.toList.flatMap (n.successors (.char c))))

/-- Do all members of the set exist? -/
def inRange (n : Nfa) (set : SortedSet Nat) : Bool :=
  set.toList.all (· < n.rows.size)

/-- The states that can be reached without reading anything. -/
def epsilonClosure (n : Nfa) (set : SortedSet Nat) : Except Fault (SortedSet Nat) :=
  let closed := n.closure set
  if n.inRange closed then .ok closed else .error .outOfRange

/-- The set after one more letter. A state that does not exist is refused, be it in the
set or found from it, as the transitions of all of them are read. -/
def step (n : Nfa) (set : SortedSet Nat) (c : Char) : Except Fault (SortedSet Nat) :=
  let next := n.after set c
  if n.inRange set && n.inRange next then .ok next else .error .outOfRange

/-- The states to begin with: none without a start state. -/
def initial (n : Nfa) : SortedSet Nat :=
  n.start.elim ∅ fun s => n.closure (.singleton s)

/-- The set to begin with, refused if it holds a state that does not exist. -/
def initialSet (n : Nfa) : Except Fault (SortedSet Nat) :=
  let first := n.initial
  if n.inRange first then .ok first else .error .outOfRange

/-- The set that is held after a word: the states to begin with, and then a step for each of
its letters. -/
def heldAfter (n : Nfa) (word : List Char) : Except Fault (SortedSet Nat) := do
  word.foldlM n.step (← n.initialSet)

/-- Does reading the word from `set` lead to a final state? -/
def acceptsFrom (n : Nfa) (set : SortedSet Nat) : List Char → Except Fault Bool
  | [] => .ok (set.toList.any n.isFinal)
  | c :: rest => if set.isEmpty then .ok false else do acceptsFrom n (← n.step set c) rest

/-- Does the word lead from the start to a final state? Reading ends early, and the word
is rejected, once no state is held. -/
def accepts (n : Nfa) (word : String) : Except Fault Bool := do
  n.acceptsFrom (← n.initialSet) word.toList

end Nfa

end PatternAutomata
