import Mathlib.Logic.Relation
import PatternAutomata.Proofs.Automaton.AnyLabels
import PatternAutomata.Proofs.BreadthFirst

/-!
# Pattern automata — what the states of a product stand for

Where the labels of the pairs that are reached are distinct, a product has one
state for each of these pairs and nothing else, and its transitions are the moves
of one operand while the other one stands still. A transition can come from either
operand; then it is one transition, but has two ties.

The pairs are numbered as they are discovered: from each, the moves of the left
operand are tried before those of the right one. The ties are recorded in the same
order.

## Results

* `mem_reachedPairs_iff`   — the pairs of the search are those that moves lead to.
* `interleave_isProductOf` — the product of two automata with starts.
-/

namespace PatternAutomata

namespace Nfa

variable {l r n : Nfa} {origin p : Nat × Nat} {s t : Nat}

/-- One operand moves, on any symbol, and the other one stands still. -/
def OneMoves (l r : Nfa) (p q : Nat × Nat) : Prop := ∃ a, PairEdge l r p a q

/-- The pairs of the search are those that moves lead to, by induction on how they are
reached on either side. -/
theorem mem_reachedPairs_iff (hl : l.Valid) (hr : r.Valid) (horigin : HasPair l r origin) :
    p ∈ reachedPairs l r origin ↔ Relation.ReflTransGen (OneMoves l r) origin p := by
  constructor
  · intro h
    obtain ⟨x, hx, hreach⟩ := mem_explore_iff.mp h
    obtain rfl := List.mem_singleton.mp hx
    -- the induction goes along the search, and each of its steps is a move
    clear h
    induction hreach with
    | refl => exact .refl
    | @step y z hy hz ih =>
      have hpair := hasPair_of_mem_reachedPairs hl hr horigin (mem_explore_iff.mpr ⟨x, hx, hy⟩)
      obtain ⟨m, hm, rfl⟩ := List.mem_map.mp hz
      exact ih.tail ⟨m.symbol, (exists_mem_pairMoves_iff hl hr hpair).mp ⟨m, hm, rfl, rfl⟩⟩
  · intro h
    induction h with
    | refl => exact List.mem_of_getElem? getElem?_zero_reachedPairs
    | tail _ hmove ih =>
      obtain ⟨a, he⟩ := hmove
      exact mem_reachedPairs_of_edge hl hr horigin ih he

/-- The ties of the moves of a pair, between places in a list of pairs. While the left operand
moves the right one is held, and the other way round. -/
def tiesFrom (l r : Nfa) (pairs : List (Nat × Nat)) (p : Nat × Nat) : List Tie :=
  (l.movesOf p.1).map (fun m =>
      { source := pairs.idxOf p, target := pairs.idxOf (m.2, p.2), held := .right }) ++
    (r.movesOf p.2).map fun m =>
      { source := pairs.idxOf p, target := pairs.idxOf (p.1, m.2), held := .left }

/-- The automaton `n` is the product of `l` and `r` from the pair `origin` on: state `x` is the
pair at place `x` of `pairs`. -/
structure IsProductOf (l r : Nfa) (origin : Nat × Nat) (pairs : List (Nat × Nat)) (n : Nfa) :
    Prop where
  nodup : pairs.Nodup
  /-- The pairs are those to which moves of one operand at a time lead. -/
  mem_iff : ∀ p, p ∈ pairs ↔ Relation.ReflTransGen (OneMoves l r) origin p
  /-- They are discovered breadth first, from each by its moves in turn. -/
  order : InWordOrder (fun places p => followPlaces (nextPairs l r) origin places = some p) pairs
  stateCount : n.stateCount = pairs.length
  label : ∀ x p, pairs[x]? = some p → ∃ a b, l.label p.1 = .ok a ∧ r.label p.2 = .ok b ∧
    n.label x = .ok s!"({a},{b})"
  start : n.start = some 0 ∧ pairs[0]? = some origin
  transition_iff : ∀ x a y, (x, a, y) ∈ n.transitions ↔ ∃ p q, pairs[x]? = some p ∧
    pairs[y]? = some q ∧ ((p.1, a, q.1) ∈ l.transitions ∧ q.2 = p.2 ∨
      (p.2, a, q.2) ∈ r.transitions ∧ q.1 = p.1)
  isFinal_iff : ∀ x, n.isFinal x = true ↔
    ∃ p, pairs[x]? = some p ∧ l.isFinal p.1 = true ∧ r.isFinal p.2 = true
  alphabet : n.alphabet = l.alphabet ∪ r.alphabet
  /-- The members of a pair exist, and their moves are listed. -/
  moves : ∀ p ∈ pairs, l.moves p.1 = .ok (l.movesOf p.1) ∧ r.moves p.2 = .ok (r.movesOf p.2)
  /-- The ties are recorded pair by pair, one for each move. -/
  ties : n.ties.toList = pairs.flatMap (tiesFrom l r pairs)

/-- **States of products are pairs**: where distinct pairs that are reached have distinct
labels, the product of two automata with starts is made, and its states are these pairs,
with their moves and the ties between them. (All automata that are made are valid, by
`Built.valid` and `ParseTree.thompson_valid`.) -/
theorem interleave_isProductOf (hl : l.Valid) (hr : r.Valid) (hs : l.start = some s)
    (ht : r.start = some t) (hdistinct : Distinct l r (s, t)) :
    ∃ n pairs, l.interleave r = .ok n ∧ IsProductOf l r (s, t) pairs n := by
  have horigin : HasPair l r (s, t) := ⟨hl.start_lt s hs, hr.start_lt t ht⟩
  obtain ⟨n, hn, hproduct⟩ := interleaveFrom_eq_ok hl hr horigin hdistinct
  have hexist : ∀ p ∈ reachedPairs l r (s, t), HasPair l r p := fun p =>
    hasPair_of_mem_reachedPairs hl hr horigin
  refine ⟨n, reachedPairs l r (s, t), (interleave_eq hs ht).trans hn, {
    nodup := nodup_explore
    mem_iff := fun p => mem_reachedPairs_iff hl hr horigin
    order := explore_inPlaceOrder
    stateCount := hproduct.stateCount
    label := ?_
    start := ⟨hproduct.start, getElem?_zero_reachedPairs⟩
    transition_iff := ?_
    isFinal_iff := ?_
    alphabet := SortedSet.ext fun c => by rw [hproduct.mem_alphabet, SortedSet.mem_union]
    moves := fun p hp => ⟨moves_eq hl (hexist p hp).1, moves_eq hr (hexist p hp).2⟩
    ties := ?_ }⟩
  · intro x p hx
    have hp := hexist p (List.mem_of_getElem? hx)
    refine ⟨_, _, StateTable.label_eq_ok hp.1, StateTable.label_eq_ok hp.2, ?_⟩
    rw [StateTable.label_eq_ok_iff, ← Labels.getElem?_toList, hproduct.labels, List.getElem?_map,
      hx]
    rfl
  · intro x a y
    rw [mem_transitions_iff, hproduct.edge]
    simp only [mem_transitions_iff]
    rfl
  · intro x
    simp only [StateTable.isFinal, decide_eq_true_iff, hproduct.mem_finals]
  · rw [hproduct.ties]
    refine List.flatMap_congr ?_
    intro p hp
    -- the moves of a pair, those of the left operand first, each with its tie
    rw [pairMoves_eq hl hr (hexist p hp), List.map_append, List.map_map, List.map_map]
    rfl

/-- Of two arrows, one of which has a label with a comma. -/
theorem interleave_isProductOf_of_arrows :
    ∃ l r n pairs, arrow "a" 'x' "b" = .ok l ∧ arrow "c" 'y' "c,d" = .ok r ∧ l.Valid ∧ r.Valid ∧
      l.start = some 0 ∧ r.start = some 0 ∧ Distinct l r (0, 0) ∧
        l.interleave r = .ok n ∧ IsProductOf l r (0, 0) pairs n := by
  obtain ⟨l, hl, hlabels, hs, -⟩ := exists_arrow 'x' (show ("a" : String) ≠ "b" by decide)
  obtain ⟨r, hr, -, ht, -⟩ := exists_arrow 'y' (show ("c" : String) ≠ "c,d" by decide)
  have hl' := (arrow_built hl).valid
  have hr' := (arrow_built hr).valid
  have hdistinct : Distinct l r (0, 0) := by
    refine distinct_of_commaFree_left hl' hr' ⟨hl'.start_lt 0 hs, hr'.start_lt 0 ht⟩ ?_
    rw [hlabels]
    decide
  obtain ⟨n, pairs, hn, hproduct⟩ := interleave_isProductOf hl' hr' hs ht hdistinct
  exact ⟨l, r, n, pairs, hl, hr, hl', hr', hs, ht, hdistinct, hn, hproduct⟩

end Nfa

end PatternAutomata
