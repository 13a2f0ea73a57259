import PatternAutomata.Automaton.Interleave
import PatternAutomata.Expr
import PatternAutomata.Proofs.Automaton.Operations
import PatternAutomata.Proofs.Automaton.Simulation
import PatternAutomata.Proofs.Labels

/-!
# Pattern automata — what an interleaving makes

The product of two automata has a state for each pair that their moves lead to,
provided that the labels of these pairs are distinct (`Distinct`). Then state `x`
is the pair at place `x` of the search, and the edges are the moves of either
operand alone (`IsProduct`).

A path of the product is a path of each operand, and its word an interleaving of
theirs: an edge of the product moves one of the two paths on, and the other way
round each operand's path can be walked while the other operand stands still.

## Results

* `interleaveFrom_eq_ok`      — the product of valid automata is made.
* `IsProduct.path_operands`, `Follows.exists_path` — paths of the product and of its operands.
* `IsProduct.accepting_iff`   — it accepts the interleavings of accepted words.
-/

namespace PatternAutomata

-- ---------------------------------------------------------------------------
-- Interleavings with symbols
-- ---------------------------------------------------------------------------

namespace Interleaving

variable {σ : Type} {u v w : List σ}

theorem left_eq_nil (h : Interleaving u v []) : u = [] := by
  cases h
  rfl

end Interleaving

namespace Nfa

variable {l r m n : Nfa} {p q : Nat × Nat} {origin : Nat × Nat} {s t x y : Nat} {a : Symbol}
  {u v w : List Char} {c : Char}

-- ---------------------------------------------------------------------------
-- Pairs
-- ---------------------------------------------------------------------------

/-- Both members of the pair exist. -/
def HasPair (l r : Nfa) (p : Nat × Nat) : Prop := p.1 < l.stateCount ∧ p.2 < r.stateCount

/-- One operand moves from `p` to `q` on `a`, and the other one stands still. -/
def PairEdge (l r : Nfa) (p : Nat × Nat) (a : Symbol) (q : Nat × Nat) : Prop :=
  l.Edge p.1 a q.1 ∧ q.2 = p.2 ∨ r.Edge p.2 a q.2 ∧ q.1 = p.1

/-- The same, where `held` is the operand that stands still. -/
def EdgeHolding (l r : Nfa) (held : Side) (p : Nat × Nat) (a : Symbol) (q : Nat × Nat) : Prop :=
  match held with
  | .right => l.Edge p.1 a q.1 ∧ q.2 = p.2
  | .left => r.Edge p.2 a q.2 ∧ q.1 = p.1

/-- One of the operands stands still, so it can be told which. For a loop it could be
either, and the move is there for both. -/
theorem pairEdge_iff : PairEdge l r p a q ↔ ∃ held, EdgeHolding l r held p a q := by
  constructor
  · rintro (h | h)
    · exact ⟨.right, h⟩
    · exact ⟨.left, h⟩
  · rintro ⟨_ | _, h⟩
    · exact .inr h
    · exact .inl h

theorem mem_movesOf : (a, t) ∈ n.movesOf s ↔ n.Edge s a t := mem_rowMoves

theorem PairEdge.hasPair (hl : l.Valid) (hr : r.Valid) (h : PairEdge l r p a q)
    (hp : HasPair l r p) : HasPair l r q := by
  rcases h with ⟨he, hq⟩ | ⟨he, hq⟩
  · exact ⟨hl.edge_lt _ _ _ he, hq ▸ hp.2⟩
  · exact ⟨hq ▸ hp.1, hr.edge_lt _ _ _ he⟩

/-- Of a pair of states all moves are listed, those of the left operand first. (For other
pairs nothing is listed, so this asks for both members to exist.) -/
theorem pairMoves_eq (hl : l.Valid) (hr : r.Valid) (hp : HasPair l r p) :
    pairMoves l r p =
      (l.movesOf p.1).map (fun m => { symbol := m.1, target := (m.2, p.2), held := .right }) ++
        (r.movesOf p.2).map fun m => { symbol := m.1, target := (p.1, m.2), held := .left } := by
  have hrange : p.1 < l.rows.size ∧ p.2 < r.rows.size := by
    rw [hl.size_rows, hr.size_rows]
    exact hp
  unfold pairMoves
  rw [if_pos hrange]
  rfl

/-- The transitions out of a state that exists are listed. -/
theorem moves_eq (hn : n.Valid) (hs : s < n.stateCount) : n.moves s = .ok (n.movesOf s) := by
  unfold moves
  rw [row_eq (hn.size_rows.symm ▸ hs)]
  rfl

/-- Of a pair that exists the construction reads the moves that the search for pairs has gone
along, so no row of transitions is missing. -/
theorem readMoves_eq (hl : l.Valid) (hr : r.Valid) (hp : HasPair l r p) :
    readMoves l r p = .ok (pairMoves l r p) := by
  unfold readMoves
  rw [moves_eq hl hp.1, ok_bind, moves_eq hr hp.2, ok_bind, pairMoves_eq hl hr hp]
  rfl

/-- The moves of a pair are the moves of its members, each holding the other one. A move
of the left member holds the right one, and the other way round. -/
theorem mem_pairMoves_iff {move : PairMove} (hl : l.Valid) (hr : r.Valid) (hp : HasPair l r p) :
    move ∈ pairMoves l r p ↔ EdgeHolding l r move.held p move.symbol move.target := by
  obtain ⟨b, ⟨s, t⟩, held⟩ := move
  rw [pairMoves_eq hl hr hp, List.mem_append, List.mem_map, List.mem_map]
  constructor
  · -- the moves of the left member are listed first, and then those of the right one
    rintro (⟨⟨b, t⟩, hb, hmove⟩ | ⟨⟨b, t⟩, hb, hmove⟩)
    · cases hmove
      exact ⟨mem_movesOf.mp hb, rfl⟩
    · cases hmove
      exact ⟨mem_movesOf.mp hb, rfl⟩
  · intro h
    cases held with
    | right =>
      obtain ⟨he, rfl⟩ := h
      exact .inl ⟨(b, s), mem_movesOf.mpr he, rfl⟩
    | left =>
      obtain ⟨he, rfl⟩ := h
      exact .inr ⟨(b, t), mem_movesOf.mpr he, rfl⟩

/-- Some move of the pair leads to `q` on `a` exactly if one of its members does. Which of
them it was does not matter for paths. -/
theorem exists_mem_pairMoves_iff (hl : l.Valid) (hr : r.Valid) (hp : HasPair l r p) :
    (∃ m ∈ pairMoves l r p, m.symbol = a ∧ m.target = q) ↔ PairEdge l r p a q := by
  rw [pairEdge_iff]
  constructor
  · rintro ⟨m, hm, rfl, rfl⟩
    exact ⟨m.held, (mem_pairMoves_iff hl hr hp).mp hm⟩
  · rintro ⟨held, he⟩
    exact ⟨⟨a, q, held⟩, (mem_pairMoves_iff hl hr hp).mpr he, rfl, rfl⟩

section Reached

variable (hl : l.Valid) (hr : r.Valid) (horigin : HasPair l r origin)

include hl hr horigin

/-- Only pairs of states that exist are reached. The induction is on how the pair is
reached: the search begins at such a pair, and moves keep to them. -/
theorem hasPair_of_mem_reachedPairs (h : p ∈ reachedPairs l r origin) : HasPair l r p := by
  obtain ⟨x, hx, hreach⟩ := mem_explore_iff.mp h
  rw [List.mem_singleton.mp hx] at hreach
  induction hreach with
  | refl => exact horigin
  | step _ hz ih =>
    have hy := ih (mem_explore_iff.mpr ⟨x, hx, by rwa [List.mem_singleton.mp hx]⟩)
    obtain ⟨m, hm, rfl⟩ := List.mem_map.mp hz
    exact ((exists_mem_pairMoves_iff hl hr hy).mp ⟨m, hm, rfl, rfl⟩).hasPair hl hr hy

/-- The pairs that are reached are closed under moves. -/
theorem mem_reachedPairs_of_edge (h : p ∈ reachedPairs l r origin) (he : PairEdge l r p a q) :
    q ∈ reachedPairs l r origin := by
  have hp := hasPair_of_mem_reachedPairs hl hr horigin h
  obtain ⟨m, hm, -, rfl⟩ := (exists_mem_pairMoves_iff hl hr hp).mpr he
  obtain ⟨x, hx, hreach⟩ := mem_explore_iff.mp h
  exact mem_explore_iff.mpr ⟨x, hx, .step hreach (List.mem_map_of_mem hm)⟩

end Reached

theorem getElem?_zero_reachedPairs : (reachedPairs l r origin)[0]? = some origin := by
  have hprefix : [origin] <+: reachedPairs l r origin := start_prefix_explore (by simp)
  obtain ⟨rest, hrest⟩ := hprefix
  rw [← hrest]
  rfl

-- ---------------------------------------------------------------------------
-- Paths of the operands
-- ---------------------------------------------------------------------------

/-- Wherever a state stands for a pair, the moves of the pair are edges of the state.
Nothing is said of pairs without a state, nor of two pairs that share one, so this holds
of products whose labels are not distinct as well. -/
def Follows (l r n : Nfa) (Stands : Nat → Nat × Nat → Prop) : Prop :=
  ∀ x p a q, Stands x p → PairEdge l r p a q → ∃ y, Stands y q ∧ n.Edge x a y

namespace Follows

variable {Stands : Nat → Nat × Nat → Prop}

/-- A path of the left operand, the right one standing still. Each of its edges is a move
of the pair. -/
theorem exists_path_left (h : Follows l r n Stands) (hu : l.Path s u t) (hx : Stands x (s, y)) :
    ∃ z, Stands z (t, y) ∧ n.Path x u z := by
  induction hu generalizing x with
  | refl s => exact ⟨x, hx, .refl x⟩
  | @step s m t a u he _ ih =>
    obtain ⟨i, hi, hedge⟩ := h x (s, y) a (m, y) hx (.inl ⟨mem_transitions_iff.mp he, rfl⟩)
    obtain ⟨z, hz, hpath⟩ := ih hi
    exact ⟨z, hz, .cons hedge hpath⟩

/-- A path of the right operand, the left one standing still. The induction is on the
path; where labels are shared, the states on the way may stand for other pairs too. -/
theorem exists_path_right (h : Follows l r n Stands) (hv : r.Path s v t) (hx : Stands x (y, s)) :
    ∃ z, Stands z (y, t) ∧ n.Path x v z := by
  induction hv generalizing x with
  | refl s => exact ⟨x, hx, .refl x⟩
  | @step s m t a v he _ ih =>
    obtain ⟨i, hi, hedge⟩ := h x (y, s) a (y, m) hx (.inr ⟨mem_transitions_iff.mp he, rfl⟩)
    obtain ⟨z, hz, hpath⟩ := ih hi
    exact ⟨z, hz, .cons hedge hpath⟩

/-- Paths of the operands are walked in the order in which their words are interleaved.
The induction is on the interleaving. For each letter, the operand whose letter it is goes
on up to behind it; moves without a letter that are left at the end are walked in any
order. -/
theorem exists_path (h : Follows l r n Stands) (hw : Interleaving u v w) (hu : l.Path p.1 u q.1)
    (hv : r.Path p.2 v q.2) (hx : Stands x p) : ∃ z, Stands z q ∧ n.Path x w z := by
  induction hw generalizing p x with
  | nil =>
    -- no letters are left, but there may be moves without one on both sides
    obtain ⟨y, hy, hxy⟩ := h.exists_path_left hu hx
    obtain ⟨z, hz, hyz⟩ := h.exists_path_right hv hy
    exact ⟨z, hz, hxy.trans hyz⟩
  | @left c u v w _ ih =>
    obtain ⟨s, hs, hu⟩ := (path_append_iff (u := [c])).mp hu
    obtain ⟨y, hy, hxy⟩ := h.exists_path_left hs hx
    obtain ⟨z, hz, hyz⟩ := ih (p := (s, p.2)) hu hv hy
    exact ⟨z, hz, hxy.trans hyz⟩
  | @right c u v w _ ih =>
    obtain ⟨s, hs, hv⟩ := (path_append_iff (u := [c])).mp hv
    obtain ⟨y, hy, hxy⟩ := h.exists_path_right hs hx
    obtain ⟨z, hz, hyz⟩ := ih (p := (p.1, s)) hu hv hy
    exact ⟨z, hz, hxy.trans hyz⟩

end Follows

-- ---------------------------------------------------------------------------
-- Names of pairs
-- ---------------------------------------------------------------------------

/-- The label of a pair: that of both members, between parentheses. -/
def pairName (l r : Nfa) (p : Nat × Nat) : String := pairText (l.nameOf p.1) (r.nameOf p.2)

theorem pairLabel_eq_ok (hp : HasPair l r p) : pairLabel l r p = .ok (pairName l r p) := by
  unfold pairLabel
  rw [StateTable.label_eq_ok hp.1, ok_bind, StateTable.label_eq_ok hp.2]
  rfl

/-- No two pairs that are reached have the same label. As with sets, this has to be
required: the comma between two labels may be one of a label. -/
def Distinct (l r : Nfa) (origin : Nat × Nat) : Prop :=
  ∀ p ∈ reachedPairs l r origin, ∀ q ∈ reachedPairs l r origin,
    pairName l r p = pairName l r q → p = q

-- ---------------------------------------------------------------------------
-- The states
-- ---------------------------------------------------------------------------

/-- An automaton without edges whose states are the pairs of a list. The first pass of the
construction makes the states of all pairs, before any transition is added. -/
structure HoldsPairs (l r : Nfa) (ps : List (Nat × Nat)) (n : Nfa) : Prop where
  valid : n.Valid
  labels : n.labels.toList = ps.map (pairName l r)
  start : n.start = none
  mem_finals : ∀ x, x ∈ n.finals ↔ ∃ p, ps[x]? = some p ∧ p.1 ∈ l.finals ∧ p.2 ∈ r.finals
  not_edge : ∀ x a y, ¬ n.Edge x a y
  alphabet : n.alphabet = l.alphabet ∪ r.alphabet
  ties : n.ties = #[]

/-- Before the first pair there are the letters of both operands and nothing else. From
here on pairs are added one at a time. -/
theorem holdsPairs_nil : HoldsPairs l r [] { alphabet := l.alphabet ∪ r.alphabet } where
  valid := valid_empty _
  labels := rfl
  start := rfl
  mem_finals x := by simp
  not_edge x a y := not_edge_of_size_le (Nat.zero_le x)
  alphabet := rfl
  ties := rfl

/-- A pair of a new label is one more state, which is final if both members are. No edge
is added yet: those come when all pairs have a state. -/
theorem HoldsPairs.push {ps : List (Nat × Nat)} (h : HoldsPairs l r ps n)
    (hp : HasPair l r p) (hnew : pairName l r p ∉ ps.map (pairName l r)) :
    ∃ n', addPair l r n p = .ok n' ∧ HoldsPairs l r (ps ++ [p]) n' := by
  have hfind : n.find? (pairName l r p) = none :=
    StateTable.find?_eq_none_iff.mpr (h.labels.symm ▸ hnew)
  have hcount : n.stateCount = ps.length := by
    rw [StateTable.stateCount_eq h.labels, List.length_map]
  let more := n.withState (pairName l r p) hfind
  have hmore : more.stateCount = ps.length + 1 := by rw [← hcount]; exact stateCount_withState
  have hlast : n.stateCount < more.stateCount := by omega
  let finals := if p.1 ∈ l.finals ∧ p.2 ∈ r.finals then n.finals.insert ps.length else n.finals
  -- the two cases are those of the construction: only the final states differ
  have hrun : addPair l r n p = .ok (more.withFinals finals) := by
    unfold addPair
    rw [pairLabel_eq_ok hp, ok_bind, addState_of_find?_eq_none hfind]
    by_cases hfinal : p.1 ∈ l.finals ∧ p.2 ∈ r.finals
    · simp only [finals, if_pos hfinal]
      rw [if_pos (by simpa [StateTable.isFinal] using hfinal), addFinal_eq hlast, hcount]
      rfl
    · simp only [finals, if_neg hfinal]
      rw [if_neg (by simpa [StateTable.isFinal] using hfinal)]
      rfl
  have hfinals := mem_insert_last_iff (a := p) h.mem_finals
  refine ⟨more.withFinals finals, hrun, {
    valid := h.valid.withState.withFinals fun x hx => ?_
    labels := by
      show more.labels.toList = _
      simp [more, h.labels]
    start := h.start
    mem_finals := hfinals
    not_edge := fun x a y he => h.not_edge x a y ((edge_withState (h := hfind)).mp he)
    alphabet := h.alphabet
    ties := h.ties }⟩
  obtain ⟨q, hq, -⟩ := (hfinals x).mp hx
  have hlt := (List.getElem?_eq_some_iff.mp hq).1
  rw [List.length_append, List.length_singleton, ← hmore] at hlt
  exact hlt

/-- The states of the first pairs that are reached, or of all of them, the start not set
yet. No fault occurs on the way, and each pair makes a state, as its label was not met
before. -/
theorem exists_holdsPairs {ps : List (Nat × Nat)} (hl : l.Valid) (hr : r.Valid)
    (horigin : HasPair l r origin) (hdistinct : Distinct l r origin)
    (hps : ps <+: reachedPairs l r origin) :
    ∃ n, ps.foldlM (addPair l r) { alphabet := l.alphabet ∪ r.alphabet } = .ok n ∧
      HoldsPairs l r ps n := by
  obtain ⟨more, hmore⟩ := hps
  have hstep : ∀ done p rest n, ps = done ++ p :: rest → HoldsPairs l r done n →
      ∃ n', addPair l r n p = .ok n' ∧ HoldsPairs l r (done ++ [p]) n' := by
    intro done p rest n hdone hn
    have hpairs : reachedPairs l r origin = done ++ p :: (rest ++ more) := by
      rw [← hmore, hdone, List.append_assoc, List.cons_append]
    have hp : p ∈ reachedPairs l r origin := by simp [hpairs]
    exact hn.push (hasPair_of_mem_reachedPairs hl hr horigin hp)
      (not_mem_map_of_eq_append_cons nodup_explore hdistinct hpairs)
  exact exists_foldlM_eq_ok hstep holdsPairs_nil

-- ---------------------------------------------------------------------------
-- The transitions
-- ---------------------------------------------------------------------------

/-- The place of a pair in the search, which is the number of its state. -/
def placeOf (l r : Nfa) (origin p : Nat × Nat) : Nat := (reachedPairs l r origin).idxOf p

theorem getElem?_reachedPairs_eq_some_iff (hp : p ∈ reachedPairs l r origin) :
    (reachedPairs l r origin)[x]? = some p ↔ x = placeOf l r origin p :=
  getElem?_eq_some_iff_idxOf nodup_explore hp

/-- The transition of a move. -/
def moveEdge (l r : Nfa) (origin p : Nat × Nat) (m : PairMove) : Nat × Symbol × Nat :=
  (placeOf l r origin p, m.symbol, placeOf l r origin m.target)

/-- The tie of a move, between the same states as its transition. It tells which operand
stands still. -/
def moveTie (l r : Nfa) (origin p : Nat × Nat) (m : PairMove) : Tie :=
  { source := placeOf l r origin p, target := placeOf l r origin m.target, held := m.held }

/-- All transitions of the product, in the order in which they are added. -/
def productEdges (l r : Nfa) (origin : Nat × Nat) : List (Nat × Symbol × Nat) :=
  (reachedPairs l r origin).flatMap fun p => (pairMoves l r p).map (moveEdge l r origin p)

/-- All ties of the product, in the same order. There is one for each move, also for moves
that make the same transition. -/
def productTies (l r : Nfa) (origin : Nat × Nat) : List Tie :=
  (reachedPairs l r origin).flatMap fun p => (pairMoves l r p).map (moveTie l r origin p)

/-- The transitions are the moves between pairs that are reached, each between the places
of its pairs. -/
theorem mem_productEdges (hl : l.Valid) (hr : r.Valid) (horigin : HasPair l r origin) :
    (x, a, y) ∈ productEdges l r origin ↔ ∃ p q, (reachedPairs l r origin)[x]? = some p ∧
      (reachedPairs l r origin)[y]? = some q ∧ PairEdge l r p a q := by
  unfold productEdges
  rw [List.mem_flatMap]
  constructor
  · rintro ⟨p, hp, hmove⟩
    obtain ⟨m, hm, hedge⟩ := List.mem_map.mp hmove
    obtain ⟨rfl, rfl, rfl⟩ : x = placeOf l r origin p ∧ a = m.symbol ∧
        y = placeOf l r origin m.target := by
      simpa [moveEdge, eq_comm] using hedge
    have hpair := hasPair_of_mem_reachedPairs hl hr horigin hp
    have he := (exists_mem_pairMoves_iff hl hr hpair).mp ⟨m, hm, rfl, rfl⟩
    -- the search has found the target too, so it has a place
    have htarget := mem_reachedPairs_of_edge hl hr horigin hp he
    exact ⟨p, m.target, (getElem?_reachedPairs_eq_some_iff hp).mpr rfl,
      (getElem?_reachedPairs_eq_some_iff htarget).mpr rfl, he⟩
  · rintro ⟨p, q, hx, hy, he⟩
    have hp := List.mem_of_getElem? hx
    have hq := List.mem_of_getElem? hy
    have hpair := hasPair_of_mem_reachedPairs hl hr horigin hp
    obtain ⟨m, hm, rfl, rfl⟩ := (exists_mem_pairMoves_iff hl hr hpair).mpr he
    refine ⟨p, hp, List.mem_map.mpr ⟨m, hm, ?_⟩⟩
    unfold moveEdge
    rw [← (getElem?_reachedPairs_eq_some_iff hp).mp hx,
      ← (getElem?_reachedPairs_eq_some_iff hq).mp hy]

/-- The product of two automata from a pair on: everything that can be asked of it is said
by the pairs at the places of its states. -/
structure IsProduct (l r : Nfa) (origin : Nat × Nat) (n : Nfa) : Prop where
  valid : n.Valid
  labels : n.labels.toList = (reachedPairs l r origin).map (pairName l r)
  start : n.start = some 0
  mem_finals : ∀ x, x ∈ n.finals ↔
    ∃ p, (reachedPairs l r origin)[x]? = some p ∧ p.1 ∈ l.finals ∧ p.2 ∈ r.finals
  edge : ∀ x a y, n.Edge x a y ↔ ∃ p q, (reachedPairs l r origin)[x]? = some p ∧
    (reachedPairs l r origin)[y]? = some q ∧ PairEdge l r p a q
  mem_alphabet : ∀ c, c ∈ n.alphabet ↔ c ∈ l.alphabet ∨ c ∈ r.alphabet
  ties : n.ties.toList = productTies l r origin

/-- The label of a pair leads to its state. -/
theorem HoldsPairs.find?_eq (h : HoldsPairs l r (reachedPairs l r origin) n)
    (hp : p ∈ reachedPairs l r origin) :
    n.find? (pairName l r p) = some (placeOf l r origin p) := by
  rw [StateTable.find?_eq_some_iff, h.labels, List.getElem?_map,
    (getElem?_reachedPairs_eq_some_iff hp).mpr rfl]
  rfl

theorem HoldsPairs.placeOf_lt (h : HoldsPairs l r (reachedPairs l r origin) n)
    (hp : p ∈ reachedPairs l r origin) : placeOf l r origin p < n.stateCount := by
  rw [StateTable.stateCount_eq h.labels, List.length_map]
  exact List.idxOf_lt_length_of_mem hp

/-- The transitions are between the states of the pairs, so none of them is refused for
its source or target. -/
theorem HoldsPairs.productEdges_lt (hl : l.Valid) (hr : r.Valid) (horigin : HasPair l r origin)
    (h : HoldsPairs l r (reachedPairs l r origin) n) :
    ∀ e ∈ productEdges l r origin, e.1 < n.stateCount ∧ e.2.2 < n.stateCount := by
  intro ⟨x, a, y⟩ he
  obtain ⟨p, q, hx, hy, -⟩ := (mem_productEdges hl hr horigin).mp he
  have hp := List.mem_of_getElem? hx
  have hq := List.mem_of_getElem? hy
  rw [(getElem?_reachedPairs_eq_some_iff hp).mp hx, (getElem?_reachedPairs_eq_some_iff hq).mp hy]
  exact ⟨h.placeOf_lt hp, h.placeOf_lt hq⟩

/-- The moves of a pair that exists are added one after the other. -/
theorem addPairMoves_eq (hl : l.Valid) (hr : r.Valid) (hp : HasPair l r p) (n : Nfa) :
    addPairMoves l r n p = (pairMoves l r p).foldlM (linkPairs l r (pairName l r p)) n := by
  unfold addPairMoves
  rw [pairLabel_eq_ok hp, ok_bind, readMoves_eq hl hr hp, ok_bind]

/-- The transitions of all moves are added to the states. Labels of both ends are looked
up again for each move, which finds the states of their pairs, since by now all of them
are there. -/
theorem HoldsPairs.foldlM_addPairMoves (hl : l.Valid) (hr : r.Valid) (horigin : HasPair l r origin)
    (h : HoldsPairs l r (reachedPairs l r origin) n) (hn : m.labels = n.labels)
    (hrows : m.rows = n.rows) :
    (reachedPairs l r origin).foldlM (addPairMoves l r) m =
      .ok (m.extend (productEdges l r origin) (productTies l r origin)) := by
  -- adding the state of a pair again answers the state and changes nothing
  have hfind : ∀ es ts, ∀ p ∈ reachedPairs l r origin,
      (m.extend es ts).addState (pairName l r p) = (m.extend es ts, placeOf l r origin p) := by
    intro es ts p hp
    refine addState_of_find?_eq_some ?_
    show m.labels.find? _ = _
    rw [hn]
    exact h.find?_eq hp
  have hlt : ∀ p ∈ reachedPairs l r origin, placeOf l r origin p < m.rows.size := by
    intro p hp
    rw [hrows, h.valid.size_rows]
    exact h.placeOf_lt hp
  refine foldlM_extend _ _ fun es ts p hp => ?_
  have hpair := hasPair_of_mem_reachedPairs hl hr horigin hp
  rw [addPairMoves_eq hl hr hpair]
  -- the moves of one pair, within the fold over all pairs
  refine (foldlM_extend (fun m => [moveEdge l r origin p m]) (fun m => [moveTie l r origin p m])
    fun es' ts' move hmove => ?_).trans ?_
  · have htarget : move.target ∈ reachedPairs l r origin :=
      mem_reachedPairs_of_edge hl hr horigin hp
        ((exists_mem_pairMoves_iff hl hr hpair).mp ⟨move, hmove, rfl, rfl⟩)
    rw [extend_extend, linkPairs, hfind _ _ p hp,
      pairLabel_eq_ok (hasPair_of_mem_reachedPairs hl hr horigin htarget)]
    dsimp only
    rw [ok_bind, hfind _ _ _ htarget]
    dsimp only
    rw [addTransition_extend (hlt p hp) (hlt _ htarget), ok_bind, recordTie_eq, extend_extend,
      extend_extend, List.append_nil]
    rfl
  · rw [← List.map_eq_flatMap, ← List.map_eq_flatMap]

/-- With two starts, the product is the one that starts at their pair. -/
theorem interleave_eq (hs : l.start = some s) (ht : r.start = some t) :
    interleave l r = interleaveFrom l r (s, t) := by
  unfold interleave
  rw [hs, ht]

/-- The product of valid automata is made, if all labels are distinct. First come the
states, then the start, which is the state of the first pair, and then the transitions
with their ties. -/
theorem interleaveFrom_eq_ok (hl : l.Valid) (hr : r.Valid) (horigin : HasPair l r origin)
    (hdistinct : Distinct l r origin) :
    ∃ n, interleaveFrom l r origin = .ok n ∧ IsProduct l r origin n := by
  obtain ⟨states, hstates, h⟩ := exists_holdsPairs hl hr horigin hdistinct List.prefix_rfl
  have hmem : origin ∈ reachedPairs l r origin := List.mem_of_getElem? getElem?_zero_reachedPairs
  have hplace : placeOf l r origin origin = 0 :=
    ((getElem?_reachedPairs_eq_some_iff hmem).mp getElem?_zero_reachedPairs).symm
  have hzero : 0 < states.stateCount := hplace ▸ h.placeOf_lt hmem
  have hvalid : (states.withStart 0).Valid := h.valid.withStart hzero
  have hrange := h.productEdges_lt hl hr horigin
  refine ⟨(states.withStart 0).extend (productEdges l r origin) (productTies l r origin), ?_, {
    valid := hvalid.extend hrange
    labels := h.labels
    start := rfl
    mem_finals := h.mem_finals
    edge := fun x a y => ?_
    mem_alphabet := fun c => ?_
    ties := ?_ }⟩
  · -- no step of the construction fails
    rw [interleaveFrom, hstates, ok_bind, pairLabel_eq_ok horigin, ok_bind,
      addState_of_find?_eq_some (h.find?_eq hmem), hplace, setStart_eq hzero, ok_bind]
    exact h.foldlM_addPairMoves hl hr horigin rfl rfl
  · rw [edge_extend fun e he => hvalid.size_rows.symm ▸ (hrange e he).1,
      mem_productEdges hl hr horigin]
    refine or_iff_right fun he => h.not_edge x a y he
  · rw [mem_alphabet_extend]
    show c ∈ states.alphabet ∨ _ ↔ _
    rw [h.alphabet, SortedSet.mem_union]
    refine or_iff_left_of_imp ?_
    rintro ⟨x, y, he⟩
    obtain ⟨p, q, -, -, ⟨he, -⟩ | ⟨he, -⟩⟩ := (mem_productEdges hl hr horigin).mp he
    · exact .inl (hl.edge_alphabet _ _ _ he)
    · exact .inr (hr.edge_alphabet _ _ _ he)
  · show (states.ties ++ _).toList = _
    rw [h.ties]
    simp

namespace IsProduct

theorem stateCount (h : IsProduct l r origin n) :
    n.stateCount = (reachedPairs l r origin).length := by
  rw [StateTable.stateCount_eq h.labels, List.length_map]

/-- The ties are the moves between the pairs, with the operand that each holds. Here the
two operands are told apart, where an edge of the product forgets which one moved. -/
theorem mem_ties_iff {tie : Tie} (hl : l.Valid) (hr : r.Valid) (horigin : HasPair l r origin)
    (h : IsProduct l r origin n) :
    tie ∈ n.ties ↔ ∃ p q a, (reachedPairs l r origin)[tie.source]? = some p ∧
      (reachedPairs l r origin)[tie.target]? = some q ∧ EdgeHolding l r tie.held p a q := by
  rw [← Array.mem_toList_iff, h.ties, productTies, List.mem_flatMap]
  constructor
  · rintro ⟨p, hp, hmove⟩
    obtain ⟨m, hm, rfl⟩ := List.mem_map.mp hmove
    have he := (mem_pairMoves_iff hl hr (hasPair_of_mem_reachedPairs hl hr horigin hp)).mp hm
    have htarget := mem_reachedPairs_of_edge hl hr horigin hp (pairEdge_iff.mpr ⟨_, he⟩)
    exact ⟨p, m.target, m.symbol, (getElem?_reachedPairs_eq_some_iff hp).mpr rfl,
      (getElem?_reachedPairs_eq_some_iff htarget).mpr rfl, he⟩
  · rintro ⟨p, q, a, hx, hy, he⟩
    have hp := List.mem_of_getElem? hx
    have hpair := hasPair_of_mem_reachedPairs hl hr horigin hp
    -- a place tells its pair, so the move that is listed has the same target
    refine ⟨p, hp, List.mem_map.mpr ⟨⟨a, q, tie.held⟩, (mem_pairMoves_iff hl hr hpair).mpr he, ?_⟩⟩
    unfold moveTie
    rw [← (getElem?_reachedPairs_eq_some_iff hp).mp hx,
      ← (getElem?_reachedPairs_eq_some_iff (List.mem_of_getElem? hy)).mp hy]

/-- Ties are between states. -/
theorem ties_lt (hl : l.Valid) (hr : r.Valid) (horigin : HasPair l r origin)
    (h : IsProduct l r origin n) :
    ∀ t ∈ n.ties, t.source < n.stateCount ∧ t.target < n.stateCount := by
  intro t ht
  obtain ⟨p, q, a, hx, hy, -⟩ := (h.mem_ties_iff hl hr horigin).mp ht
  rw [h.stateCount]
  exact ⟨(List.getElem?_eq_some_iff.mp hx).1, (List.getElem?_eq_some_iff.mp hy).1⟩

-- ---------------------------------------------------------------------------
-- The language
-- ---------------------------------------------------------------------------

/-- A path of the product moves along a path of each operand. Each of its edges is a move
of one operand, whose path it prolongs, and the interleaving takes its letter from that
side. -/
theorem path_operands (h : IsProduct l r origin n) (hp : n.Path x w y)
    (hx : (reachedPairs l r origin)[x]? = some p) (hy : (reachedPairs l r origin)[y]? = some q) :
    ∃ u v, l.Path p.1 u q.1 ∧ r.Path p.2 v q.2 ∧ Interleaving u v w := by
  induction hp generalizing p with
  | refl s =>
    obtain rfl := Option.some.inj (hx.symm.trans hy)
    exact ⟨[], [], .refl p.1, .refl p.2, .nil⟩
  | @step s t z a w he _ ih =>
    obtain ⟨p', m, hs, ht, hmove⟩ := (h.edge s a t).mp (mem_transitions_iff.mp he)
    obtain rfl := Option.some.inj (hs.symm.trans hx)
    obtain ⟨u, v, hu, hv, hw⟩ := ih ht hy
    rcases hmove with ⟨he, hm⟩ | ⟨he, hm⟩
    · exact ⟨a.reads ++ u, v, .cons he hu, hm ▸ hv, hw.append_left a.reads⟩
    · exact ⟨u, a.reads ++ v, hm ▸ hu, .cons he hv, hw.append_right a.reads⟩

/-- Every pair is at a place, and so are the pairs that its moves lead to. -/
theorem follows (hl : l.Valid) (hr : r.Valid) (horigin : HasPair l r origin)
    (h : IsProduct l r origin n) :
    Follows l r n fun x p => (reachedPairs l r origin)[x]? = some p := by
  intro x p a q hx he
  obtain ⟨y, hy⟩ := List.getElem?_of_mem
    (mem_reachedPairs_of_edge hl hr horigin (List.mem_of_getElem? hx) he)
  exact ⟨y, hy, (h.edge x a y).mpr ⟨p, q, hx, hy, he⟩⟩

/-- The product accepts the interleavings of what its operands accept. A word that is
accepted is read along a path from the first pair to a pair of final states, and that is a
path in each operand. -/
theorem accepting_iff (hl : l.Valid) (hr : r.Valid) (h : IsProduct l r (s, t) n)
    (hs : l.start = some s) (ht : r.start = some t) :
    n.Accepting w ↔ ∃ u v, l.Accepting u ∧ r.Accepting v ∧ Interleaving u v w := by
  have horigin : HasPair l r (s, t) := ⟨hl.start_lt s hs, hr.start_lt t ht⟩
  constructor
  · rintro ⟨x, hx, y, hy, hp⟩
    obtain rfl := Option.some.inj (h.start.symm.trans hx)
    obtain ⟨q, hq, hql, hqr⟩ := (h.mem_finals y).mp hy
    -- the path falls apart into one of each operand
    obtain ⟨u, v, hu, hv, hw⟩ := h.path_operands hp getElem?_zero_reachedPairs hq
    exact ⟨u, v, ⟨s, hs, q.1, hql, hu⟩, ⟨t, ht, q.2, hqr, hv⟩, hw⟩
  · rintro ⟨u, v, ⟨s', hs', x, hx, hu⟩, ⟨t', ht', y, hy, hv⟩, hw⟩
    obtain rfl := Option.some.inj (hs.symm.trans hs')
    obtain rfl := Option.some.inj (ht.symm.trans ht')
    -- and two paths are put together along the interleaving
    obtain ⟨z, hz, hp⟩ :=
      (h.follows hl hr horigin).exists_path (q := (x, y)) hw hu hv getElem?_zero_reachedPairs
    exact ⟨0, h.start, z, (h.mem_finals z).mpr ⟨_, hz, hx, hy⟩, hp⟩

end IsProduct

end Nfa

end PatternAutomata
