import PatternAutomata.Direct
import PatternAutomata.Proofs.Outcome

/-!
# Pattern automata — worklists

The constructions are loops over a queue. An element that is met for the first time
gets a state, goes into the map of what was met, and waits at the end of the queue.
The element at the front is taken out, and its moves are added one by one, each as
soon as its target was met. So states and transitions are made in turn, and where
labels are shared the automaton has fewer states than the map has elements. The
loop reads the map only.

A loop ends on any input. It lowers a bound with every element that it takes: how
many elements of the range of all targets were not met yet, and how many wait.

The loop that compares two automata makes nothing, and may leave before the queue is
empty.

## Results

* `Loop.weight_visit_le` — the moves of an element do not raise the bound.
-/

namespace PatternAutomata

variable {α β μ : Type}

-- ---------------------------------------------------------------------------
-- Loops
-- ---------------------------------------------------------------------------

/-- A loop on its way: what it has made, the elements that it has ever queued, in order
and with their states, those that wait, and those that it has taken out. What was queued
is what was taken out and what waits; the list of all of them serves as the map from
elements to states. -/
structure Worklist (α β : Type) where
  made : β
  states : List (α × Nat) := []
  queue : List α := []
  taken : List α := []

/-- All elements that were ever queued, in order. -/
def Worklist.elements (w : Worklist α β) : List α := w.states.map (·.1)

/-- What a loop does with its elements: the state that it gives to each, the moves that it
looks at, the transition that it makes of a move, and the elements at which it leaves. The
targets of all moves are finitely many, which is why it ends. -/
structure Loop (α μ β : Type) where
  empty : β
  addState : β → α → Except Fault (β × Nat)
  setStart : β → Nat → Except Fault β
  moves : α → List μ
  target : α → μ → α
  addMove : β → Nat → μ → Nat → Except Fault β
  leaves : α → Bool := fun _ => false
  finite : FiniteRange fun x => (moves x).map (target x)

namespace Loop

variable [DecidableEq α]

/-- The state of `x`. If `x` was not met before, it gets one and waits. -/
def meet (k : Loop α μ β) (w : Worklist α β) (x : α) : Except Fault (Worklist α β × Nat) :=
  match w.states.lookup x with
  | some s => .ok (w, s)
  | none => do
    let (made, s) ← k.addState w.made x
    return ({ w with made, states := w.states ++ [(x, s)], queue := w.queue ++ [x] }, s)

/-- Meets the target of a move of `x`, whose state is `source`, and adds the move. -/
def follow (k : Loop α μ β) (x : α) (source : Nat) (w : Worklist α β) (move : μ) :
    Except Fault (Worklist α β) := do
  let (w, target) ← k.meet w (k.target x move)
  return { w with made := ← k.addMove w.made source move target }

/-- Follows the moves of an element from the state that the map has for it. -/
def visit (k : Loop α μ β) (w : Worklist α β) (x : α) : Except Fault (Worklist α β) := do
  let source ← (w.states.lookup x).elim (.error .outOfRange) .ok
  (k.moves x).foldlM (k.follow x source) w

/-- Nothing is made yet but the first element, which is the start. -/
def start (k : Loop α μ β) (x : α) : Except Fault (Worklist α β) := do
  let (w, s) ← k.meet { made := k.empty } x
  return { w with made := ← k.setStart w.made s }

-- ---------------------------------------------------------------------------
-- The end of a loop
-- ---------------------------------------------------------------------------

/-- How many elements are taken at most, if those that are met lie in `range`. -/
def weight (range : List α) (w : Worklist α β) : Nat :=
  (range.filter (· ∉ w.elements)).length + w.queue.length

variable {k : Loop α μ β} {range : List α} {w w' : Worklist α β} {x : α} {s : Nat}

/-- The map has no state for `x` if `x` was never queued. -/
theorem lookup_eq_none_iff : w.states.lookup x = none ↔ x ∉ w.elements := by
  rw [List.lookup_eq_none_iff, Worklist.elements, List.mem_map]
  refine ⟨fun h ⟨p, hp, hx⟩ => ?_, fun h p hp => ?_⟩
  · simpa [hx] using h p hp
  · exact bne_iff_ne.mpr fun hx => h ⟨p, hp, hx.symm⟩

/-- Meeting an element changes nothing if it was met before. Otherwise its state is made, and it
waits behind all others. -/
theorem meet_eq_ok (h : k.meet w x = .ok (w', s)) :
    w.states.lookup x = some s ∧ w' = w ∨
      x ∉ w.elements ∧ ∃ made, k.addState w.made x = .ok (made, s) ∧
        w' = { w with made, states := w.states ++ [(x, s)], queue := w.queue ++ [x] } := by
  unfold meet at h
  split at h
  · rename_i t hlookup
    cases h
    exact .inl ⟨hlookup, rfl⟩
  · rename_i hlookup
    obtain ⟨⟨made, t⟩, hadd, h⟩ := bind_eq_ok.mp h
    cases h
    exact .inr ⟨lookup_eq_none_iff.mp hlookup, made, hadd, rfl⟩

/-- An element that waits was one to be met. -/
theorem weight_meet_le (hx : x ∈ range) (h : k.meet w x = .ok (w', s)) :
    weight range w' ≤ weight range w := by
  rcases meet_eq_ok h with ⟨-, rfl⟩ | ⟨hnew, made, -, rfl⟩
  · exact Nat.le_refl _
  · have helements : (w.states ++ [(x, s)]).map (·.1) = w.elements ++ [x] := List.map_append
    have hsplit : range.filter (· ∉ w.elements ++ [x]) =
        (range.filter (· ∉ w.elements)).filter (· ≠ x) := by
      rw [List.filter_filter]
      refine List.filter_congr fun y _ => ?_
      simp [and_comm]
    -- `x` itself is no longer to be met, and so makes up for its place in the queue
    have hlt : (range.filter (· ∉ w.elements ++ [x])).length <
        (range.filter (· ∉ w.elements)).length := by
      rw [hsplit]
      refine List.length_filter_lt_length_iff_exists.mpr ⟨x, ?_, by simp⟩
      exact List.mem_filter.mpr ⟨hx, decide_eq_true hnew⟩
    show (range.filter (· ∉ (w.states ++ [(x, s)]).map (·.1))).length +
      (w.queue ++ [x]).length ≤ weight range w
    rw [helements, List.length_append, List.length_singleton, weight]
    omega

/-- A move meets a single element, so it does not raise the bound. -/
theorem weight_follow_le {source : Nat} {move : μ} (hmove : k.target x move ∈ range)
    (h : k.follow x source w move = .ok w') : weight range w' ≤ weight range w := by
  obtain ⟨⟨met, t⟩, hmeet, h⟩ := bind_eq_ok.mp h
  obtain ⟨made, -, h⟩ := bind_eq_ok.mp h
  cases h
  have hle : weight range met ≤ weight range w := weight_meet_le hmove hmeet
  exact hle

/-- The moves of an element do not raise the bound. -/
theorem weight_visit_le (hmoves : ∀ move ∈ k.moves x, k.target x move ∈ range)
    (h : k.visit w x = .ok w') : weight range w' ≤ weight range w := by
  obtain ⟨source, -, hrun⟩ := bind_eq_ok.mp h
  clear h
  -- the moves in turn; the state that they start from does not matter
  generalize k.moves x = moves at hrun hmoves
  induction moves generalizing w with
  | nil =>
    cases hrun
    exact Nat.le_refl _
  | cons move moves ih =>
    obtain ⟨hmove, hrest⟩ := List.forall_mem_cons.mp hmoves
    rw [List.foldlM_cons] at hrun
    obtain ⟨next, hfollow, hrun⟩ := bind_eq_ok.mp hrun
    exact Nat.le_trans (ih hrun hrest) (weight_follow_le hmove hfollow)

/-- Takes what waits, one element after the other. -/
def run (k : Loop α μ β) (w : Worklist α β) : Except Fault (Option α × Worklist α β) :=
  match _hqueue : w.queue with
  | [] => .ok (none, w)
  | x :: queue =>
    if k.leaves x then .ok (some x, { w with queue, taken := w.taken ++ [x] })
    else
      match _hvisit : k.visit { w with queue, taken := w.taken ++ [x] } x with
      | .error fault => .error fault
      | .ok w' => k.run w'
termination_by weight k.finite.choose w
decreasing_by
  have hrange : ∀ move ∈ k.moves x, k.target x move ∈ k.finite.choose := fun move hmove =>
    k.finite.choose_spec x _ (List.mem_map_of_mem hmove)
  refine Nat.lt_of_le_of_lt (weight_visit_le hrange _hvisit) ?_
  rw [weight, weight, _hqueue]
  exact Nat.add_lt_add_left (Nat.lt_succ_self _) _

/-- The whole loop, and the element at which it left, if it did. -/
def runFrom (k : Loop α μ β) (x : α) : Except Fault (Option α × Worklist α β) := do
  k.run (← k.start x)

end Loop

-- ---------------------------------------------------------------------------
-- The loops of the constructions
-- ---------------------------------------------------------------------------

/-- A loop that makes a deterministic automaton of what it meets. -/
def Dfa.searchLoop (alphabet : SortedSet Char) (naming : StateNaming α)
    (moves : α → List (Char × α)) (finite : FiniteRange fun x => (moves x).map (·.2)) :
    Loop α (Char × α) Dfa where
  empty := { alphabet := alphabet }
  addState d x := do
    let (d, s) := d.addState (← naming.label x)
    return (← if naming.isFinal x then d.addFinal s else pure d, s)
  setStart := Dfa.setStart
  moves := moves
  target _ move := move.2
  addMove d source move target := d.addTransition source move.1 target
  finite := finite

/-- Determinization: the sets of states that a word leads to. -/
def Nfa.subsetLoop (n : Nfa) : Loop (SortedSet Nat) (Char × SortedSet Nat) Dfa :=
  Dfa.searchLoop n.alphabet n.subsetNaming n.subsetMoves n.finiteRange_nextSubsets

/-- The direct construction: the sets of positions that can come after a word. -/
def FollowTable.positionLoop (f : FollowTable) (t : ParseTree) :
    Loop (SortedSet Nat) (Char × SortedSet Nat) Dfa :=
  Dfa.searchLoop (.ofList t.symbols) t.positionsNaming (f.moves t) (f.finiteRange_nextSets t)

/-- Interleaving: the pairs of states that can be reached. -/
def Nfa.productLoop (left right : Nfa) : Loop (Nat × Nat) PairMove Nfa where
  empty := { alphabet := left.alphabet ∪ right.alphabet }
  addState n p := do
    let (n, s) := n.addState (← pairLabel left right p)
    return (← if left.isFinal p.1 && right.isFinal p.2 then n.addFinal s else pure n, s)
  setStart := Nfa.setStart
  moves := pairMoves left right
  target _ move := move.target
  addMove n source move target := do
    let n ← n.addTransition source move.symbol target
    return n.recordTie { source := source, target := target, held := move.held }
  finite := finiteRange_nextPairs left right

theorem Dfa.finiteRange_comparison (a b : Dfa) : FiniteRange (nextPairs a b (letters a b)) :=
  finiteRange_nextPairs a b _

/-- Comparison: the pairs of states that a word leads to, up to the first that disagrees. Nothing
is made of them. -/
def Dfa.comparisonLoop (a b : Dfa) : Loop Pair Char Unit where
  empty := ()
  addState _ _ := .ok ((), 0)
  setStart _ _ := .ok ()
  moves _ := letters a b
  target p c := (a.nextOf p.1 c, b.nextOf p.2 c)
  addMove _ _ _ _ := .ok ()
  leaves := disagree a b
  finite := finiteRange_comparison a b

end PatternAutomata
