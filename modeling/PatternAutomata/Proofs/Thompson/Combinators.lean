import PatternAutomata.Proofs.Automaton.Operations
import PatternAutomata.Proofs.Labels
import PatternAutomata.Thompson

/-!
# Pattern automata — what the combinators make

Each combinator of the construction takes fragments and makes a fragment. What
it makes is said here part by part: the labels, the start, the final states, the
edges, the alphabet and the ties. The combinators that need a fresh start and a
fresh final state share one way to wire them (`wire`).

A combinator does not fail on fragments that have a start, as long as their labels
are not fresh ones (`Free`) and no label is in both operands (`Mergeable`).

## Results

* `run_atom`, `run_star`, `run_concat`, `run_union` — each combinator makes its fragment.
-/

namespace PatternAutomata

namespace Workshop

variable {α β : Type} {n l r : Nfa} {w : Workshop} {a b : Symbol} {s f k x y : Nat} {c : Char}

-- ---------------------------------------------------------------------------
-- Fresh states
-- ---------------------------------------------------------------------------

/-- No label is one of those that are still to come. -/
def Free (n : Nfa) (next : Nat) : Prop := ∀ i, next ≤ i → freshLabel i ∉ n.labels.toList

theorem Free.find?_eq_none (h : Free n k) : n.find? (freshLabel k) = none :=
  Labels.find?_eq_none_iff_not_mem.mpr (h k (Nat.le_refl k))

/-- Once the next label is taken, the one after it is free. The counter only goes up, so
no label is ever given back. -/
theorem Free.withState (h : Free n k) :
    Free (n.withState (freshLabel k) h.find?_eq_none) (k + 1) := by
  intro i hi hmem
  rw [Nfa.toList_labels_withState, List.mem_append, List.mem_singleton] at hmem
  rcases hmem with hmem | hmem
  · exact h i (by omega) hmem
  · have := freshLabel_inj hmem
    omega

/-- Two more states, with the next two labels. Repetitions and unions begin with these. -/
def withTwo (n : Nfa) (k : Nat) (h : Free n k) : Nfa :=
  (n.withState (freshLabel k) h.find?_eq_none).withState (freshLabel (k + 1))
    h.withState.find?_eq_none

section WithTwo

variable {h : Free n k}

@[simp] theorem toList_labels_withTwo :
    (withTwo n k h).labels.toList = n.labels.toList ++ [freshLabel k, freshLabel (k + 1)] := by
  simp [withTwo]

@[simp] theorem stateCount_withTwo : (withTwo n k h).stateCount = n.stateCount + 2 := by
  simp [withTwo]

@[simp] theorem alphabet_withTwo : (withTwo n k h).alphabet = n.alphabet := rfl

@[simp] theorem ties_withTwo : (withTwo n k h).ties = n.ties := rfl

@[simp] theorem edge_withTwo : (withTwo n k h).Edge x a y ↔ n.Edge x a y := by
  simp [withTwo]

theorem valid_withTwo (hn : n.Valid) : (withTwo n k h).Valid := hn.withState.withState

end WithTwo

theorem run_lift {x : Except Fault α} : (liftM x : Build α).run w = x.map (·, w) := by
  cases x <;> rfl

theorem run_lift_bind {x : Except Fault α} {g : α → Build β} :
    (liftM x >>= g : Build β).run w = x >>= fun a => (g a).run w := by
  cases x <;> rfl

theorem lift_ok_bind {x : α} {g : α → Build β} :
    (liftM (Except.ok x : Except Fault α) >>= g : Build β) = g x := rfl

/-- A loop whose steps do not use the workshop is one over automata alone. The combinators
are written in one monad and reasoned about in two, and this takes their loops across. -/
theorem run_foldlM_lift {g : β → α → Build β} {g' : β → α → Except Fault β}
    (h : ∀ b x w, (g b x).run w = (g' b x).map (·, w)) (l : List α) (b : β) (w : Workshop) :
    (l.foldlM g b).run w = (l.foldlM g' b).map (·, w) := by
  induction l generalizing b w with
  | nil => rfl
  | cons x l ih =>
    rw [List.foldlM_cons, List.foldlM_cons, StateT.run_bind, h]
    -- a step that fails ends both loops
    cases g' b x with
    | error e => rfl
    | ok c => exact ih c w

/-- A fresh state before other steps takes the next label, which is free, so the state is
a new one; what follows runs with a counter that is one higher. -/
theorem run_fresh_bind {g : Nfa × Nat → Build β} (h : Free n w.next) :
    (fresh n >>= g).run w =
      (g (n.withState (freshLabel w.next) h.find?_eq_none, n.stateCount)).run
        { w with next := w.next + 1 } := by
  have hfresh : (fresh n).run w = .ok ((n.withState (freshLabel w.next) h.find?_eq_none,
      n.stateCount), { w with next := w.next + 1 }) := by
    show Except.ok (n.addState (freshLabel w.next), _) = _
    rw [Nfa.addState_of_find?_eq_none h.find?_eq_none]
  rw [StateT.run_bind, hfresh]
  rfl

/-- A construction that begins with two fresh states. The steps between them (`hg`) do
nothing else. -/
theorem run_fresh_two {g g' : Nfa × Nat → Build β} (h : Free n w.next)
    (hg : g (n.withState (freshLabel w.next) h.find?_eq_none, n.stateCount) =
      fresh (n.withState (freshLabel w.next) h.find?_eq_none) >>= g') :
    (fresh n >>= g).run w =
      (g' (withTwo n w.next h, n.stateCount + 1)).run { w with next := w.next + 2 } := by
  have hsecond : Free (n.withState (freshLabel w.next) h.find?_eq_none)
      { w with next := w.next + 1 }.next := h.withState
  rw [run_fresh_bind h, hg]
  refine (run_fresh_bind hsecond).trans ?_
  rw [Nfa.stateCount_withState]
  rfl

-- ---------------------------------------------------------------------------
-- Wiring
-- ---------------------------------------------------------------------------

/-- More edges, and a start and a final state in the place of those before. Atoms,
repetitions and unions all end like this, and differ in their edges only. -/
def wire (n : Nfa) (edges : List (Nat × Symbol × Nat)) (s f : Nat) : Nfa :=
  (((n.withFinals ∅).extend edges []).withStart s).withFinals (.singleton f)

section Wire

variable {es : List (Nat × Symbol × Nat)}

@[simp] theorem labels_wire : (wire n es s f).labels = n.labels := rfl

@[simp] theorem start_wire : (wire n es s f).start = some s := rfl

@[simp] theorem mem_finals_wire : x ∈ (wire n es s f).finals ↔ x = f := SortedSet.mem_singleton

@[simp] theorem ties_wire : (wire n es s f).ties = n.ties := Array.append_empty ..

theorem edge_wire (h : ∀ e ∈ es, e.1 < n.rows.size) :
    (wire n es s f).Edge x a y ↔ n.Edge x a y ∨ (x, a, y) ∈ es := by
  show ((n.withFinals ∅).extend es []).Edge x a y ↔ _
  exact Nfa.edge_extend (n := n.withFinals ∅) h

theorem mem_alphabet_wire :
    c ∈ (wire n es s f).alphabet ↔ c ∈ n.alphabet ∨ ∃ x y, (x, .char c, y) ∈ es := by
  show c ∈ ((n.withFinals ∅).extend es []).alphabet ↔ _
  exact Nfa.mem_alphabet_extend (n := n.withFinals ∅)

theorem valid_cleared (hn : n.Valid) : (n.withFinals ∅).Valid :=
  hn.withFinals fun _ hs => absurd hs SortedSet.not_mem_empty

/-- Wiring keeps the parts together, if it is between states that exist. -/
theorem valid_wire (hn : n.Valid) (h : ∀ e ∈ es, e.1 < n.stateCount ∧ e.2.2 < n.stateCount)
    (hs : s < n.stateCount) (hf : f < n.stateCount) : (wire n es s f).Valid := by
  have hextend : ((n.withFinals ∅).extend es []).Valid := (valid_cleared hn).extend h
  refine (hextend.withStart hs).withFinals fun x hx => ?_
  rw [SortedSet.mem_singleton.mp hx]
  exact hf

/-- The last steps of a wiring: the edges are there, the start and the final state are
set. -/
theorem run_setStart_addFinal (hs : s < n.stateCount) (hf : f < n.stateCount) :
    (do
      let n ← (liftM (((n.withFinals ∅).extend es []).setStart s) : Build Nfa)
      liftM (n.addFinal f) : Build Nfa).run w = .ok (wire n es s f, w) := by
  rw [run_lift_bind, Nfa.setStart_eq (n := (n.withFinals ∅).extend es []) hs]
  show (liftM (Nfa.addFinal _ f) : Build Nfa).run w = _
  rw [run_lift, Nfa.addFinal_eq (n := ((n.withFinals ∅).extend es []).withStart s) hf]
  rfl

/-- The last steps of a wiring whose start leads to two states. These are two edges more,
and then the new start and final states are set. -/
theorem run_fork (hn : n.Valid) (hs : s < n.stateCount) (hf : f < n.stateCount)
    (hx : x < n.stateCount) (hy : y < n.stateCount) :
    (do
      let n ← (liftM (((n.withFinals ∅).extend es []).addTransition s .epsilon x) : Build Nfa)
      let n ← (liftM (n.addTransition s .epsilon y) : Build Nfa)
      let n ← (liftM (n.setStart s) : Build Nfa)
      liftM (n.addFinal f) : Build Nfa).run w =
    .ok (wire n (es ++ [(s, .epsilon, x), (s, .epsilon, y)]) s f, w) := by
  -- one edge more after any others
  have hadd : ∀ es' : List (Nat × Symbol × Nat), ∀ t, t < n.stateCount →
      ((n.withFinals ∅).extend es' []).addTransition s .epsilon t =
        .ok ((n.withFinals ∅).extend (es' ++ [(s, .epsilon, t)]) []) := fun es' t ht =>
    Nfa.addTransition_extend (hn.size_rows.symm ▸ hs) (hn.size_rows.symm ▸ ht)
  rw [run_lift_bind, hadd es x hx, ok_bind, run_lift_bind, hadd _ y hy, List.append_assoc, ok_bind]
  exact run_setStart_addFinal hs hf

end Wire

-- ---------------------------------------------------------------------------
-- Single transitions
-- ---------------------------------------------------------------------------

/-- A start, a final state, and one transition. The labels say at which number the
construction was. -/
structure IsAtom (a : Symbol) (next : Nat) (n : Nfa) : Prop where
  valid : n.Valid
  labels : n.labels.toList = [freshLabel next, freshLabel (next + 1)]
  start : n.start = some 0
  mem_finals : ∀ x, x ∈ n.finals ↔ x = 1
  edge : ∀ x b y, n.Edge x b y ↔ x = 0 ∧ b = a ∧ y = 1
  mem_alphabet : ∀ c, c ∈ n.alphabet ↔ a = .char c
  ties : n.ties = #[]

theorem IsAtom.stateCount (h : IsAtom a k n) : n.stateCount = 2 := StateTable.stateCount_eq h.labels

/-- Nothing is needed of an automaton without states. -/
theorem valid_empty : ({} : Nfa).Valid where
  start_lt s hs := nomatch hs
  finals_lt s hs := absurd hs SortedSet.not_mem_empty
  size_rows := rfl
  edge_lt s a t he := absurd he (Nfa.not_edge_of_size_le (Nat.zero_le s))
  edge_alphabet s c t he := absurd he (Nfa.not_edge_of_size_le (Nat.zero_le s))
  targets_ne s a := by simp

/-- An atom is made, in any workshop. It takes two fresh labels, and nothing that was made
before is touched. -/
theorem run_atom (a : Symbol) (w : Workshop) :
    ∃ n, (atom a).run w = .ok (n, { w with next := w.next + 2 }) ∧ IsAtom a w.next n := by
  have hfree : Free {} w.next := fun i _ => List.not_mem_nil
  have hvalid : (withTwo {} w.next hfree).Valid := valid_withTwo valid_empty
  have hcount : (withTwo {} w.next hfree).stateCount = 2 := stateCount_withTwo
  have hrange : ∀ e ∈ [(0, a, 1)], e.1 < (withTwo {} w.next hfree).stateCount ∧
      e.2.2 < (withTwo {} w.next hfree).stateCount := by
    simp [hcount]
  have hsource : ∀ e ∈ [(0, a, 1)], e.1 < (withTwo {} w.next hfree).rows.size := fun e he =>
    hvalid.size_rows ▸ (hrange e he).1
  refine ⟨wire (withTwo {} w.next hfree) [(0, a, 1)] 0 1, ?_, ?_⟩
  · have hadd : (withTwo {} w.next hfree).addTransition 0 a 1 =
        .ok (((withTwo {} w.next hfree).withFinals ∅).extend [(0, a, 1)] []) :=
      Nfa.addTransition_eq (by rw [hvalid.size_rows, hcount]; omega)
        (by rw [hvalid.size_rows, hcount]; omega)
    -- two states, one transition, and the wiring's last steps
    refine (run_fresh_two hfree rfl).trans ?_
    show (liftM (Nfa.addTransition (withTwo {} w.next hfree) 0 a 1) >>= _ : Build Nfa).run _ = _
    rw [run_lift_bind, hadd, ok_bind]
    have hzero : ({} : Nfa).stateCount = 0 := rfl
    exact run_setStart_addFinal (by omega) (by omega)
  · exact {
      valid := valid_wire hvalid hrange (by omega) (by omega)
      labels := by simp
      start := start_wire
      mem_finals := fun x => mem_finals_wire
      edge := fun x b y => by
        rw [edge_wire hsource, edge_withTwo]
        simp [Nfa.not_edge_of_size_le (n := {}) (Nat.zero_le x)]
      mem_alphabet := fun c => by
        rw [mem_alphabet_wire]
        simp [eq_comm]
      ties := by simp }

-- ---------------------------------------------------------------------------
-- Repetition
-- ---------------------------------------------------------------------------

/-- What the repetition of `m` adds to `m`. The states of `m` keep their numbers, and from
every state that was final, as from the new start, one can go to the old start and to the
new final state. -/
structure IsStar (m : Nfa) (next : Nat) (n : Nfa) : Prop where
  valid : n.Valid
  labels : n.labels.toList = m.labels.toList ++ [freshLabel next, freshLabel (next + 1)]
  start : n.start = some m.stateCount
  mem_finals : ∀ x, x ∈ n.finals ↔ x = m.stateCount + 1
  edge : ∀ x b y, n.Edge x b y ↔ m.Edge x b y ∨
    b = .epsilon ∧ (x ∈ m.finals ∨ x = m.stateCount) ∧
      (m.start = some y ∨ y = m.stateCount + 1)
  mem_alphabet : ∀ c, c ∈ n.alphabet ↔ c ∈ m.alphabet
  ties : n.ties = m.ties

theorem IsStar.stateCount {m : Nfa} (h : IsStar m k n) : n.stateCount = m.stateCount + 2 := by
  rw [StateTable.stateCount_eq h.labels, List.length_append, Labels.length_toList]
  rfl

theorem startOf_eq (h : n.start = some s) : startOf n = .ok s := by
  unfold startOf
  rw [h]
  rfl

/-- The transitions of a repetition whose start state `s` and final state `f` are new, in
the order in which they are added. -/
def starEdges (m : Nfa) (inner s f : Nat) : List (Nat × Symbol × Nat) :=
  (m.finals.toList.flatMap fun old => [(old, .epsilon, inner), (old, .epsilon, f)]) ++
    [(s, .epsilon, inner), (s, .epsilon, f)]

/-- They lead from the old final states and the new start to the old start and the new
final state. -/
theorem mem_starEdges {inner : Nat} :
    (x, a, y) ∈ starEdges n inner s f ↔
      a = .epsilon ∧ (x ∈ n.finals ∨ x = s) ∧ (inner = y ∨ y = f) := by
  simp only [starEdges, List.mem_append, List.mem_flatMap, List.mem_cons, List.not_mem_nil,
    or_false, Prod.mk.injEq, SortedSet.mem_toList]
  constructor
  · rintro (⟨old, hold, ⟨rfl, rfl, rfl⟩ | ⟨rfl, rfl, rfl⟩⟩ | ⟨rfl, rfl, rfl⟩ | ⟨rfl, rfl, rfl⟩)
    · -- one case for each transition that is added
      exact ⟨rfl, .inl hold, .inl rfl⟩
    · exact ⟨rfl, .inl hold, .inr rfl⟩
    · exact ⟨rfl, .inr rfl, .inl rfl⟩
    · exact ⟨rfl, .inr rfl, .inr rfl⟩
  · rintro ⟨rfl, hx | rfl, rfl | rfl⟩
    · exact .inl ⟨x, hx, .inl ⟨rfl, rfl, rfl⟩⟩
    · exact .inl ⟨x, hx, .inr ⟨rfl, rfl, rfl⟩⟩
    · exact .inr (.inl ⟨rfl, rfl, rfl⟩)
    · exact .inr (.inr ⟨rfl, rfl, rfl⟩)

/-- From an old final state, back to the start or out to the new final state. -/
def stepBack (inner f : Nat) (n : Nfa) (old : Nat) : Except Fault Nfa := do
  let n ← n.addTransition old .epsilon inner
  n.addTransition old .epsilon f

/-- The loop over the old final states adds two transitions at each: back to where the
inside begins, and on to the new final state. -/
theorem foldlM_stepBack {l : List Nat} {inner : Nat} (hl : ∀ x ∈ l, x < n.rows.size)
    (hinner : inner < n.rows.size) (hf : f < n.rows.size) :
    l.foldlM (stepBack inner f) n = .ok (n.extend (l.flatMap fun old =>
      [(old, .epsilon, inner), (old, .epsilon, f)]) []) := by
  refine (Nfa.foldlM_extend (fun old => [(old, .epsilon, inner), (old, .epsilon, f)])
    (fun _ => []) fun es ts old hold => ?_).trans ?_
  · unfold stepBack
    rw [Nfa.addTransition_extend (hl old hold) hinner, ok_bind,
      Nfa.addTransition_extend (hl old hold) hf, Nfa.extend_extend, List.append_nil,
      List.append_assoc]
    rfl
  · rw [List.flatMap_eq_nil_iff.mpr fun _ _ => rfl]

/-- All these transitions are between states: old ones, or the two new ones behind them. -/
theorem starEdges_lt (hn : n.Valid) (hs : n.start = some s) :
    ∀ e ∈ starEdges n s n.stateCount (n.stateCount + 1),
      e.1 < n.stateCount + 2 ∧ e.2.2 < n.stateCount + 2 := by
  intro ⟨x, a, y⟩ he
  obtain ⟨-, hx, hy⟩ := mem_starEdges.mp he
  have hlt : s < n.stateCount := hn.start_lt s hs
  have hx' : x ≤ n.stateCount := hx.elim (fun hx => Nat.le_of_lt (hn.finals_lt x hx)) Nat.le_of_eq
  show x < _ ∧ y < _
  omega

/-- The wired automaton is the repetition: two states around the body, with the edges from
its final states back to its start, and those past it. -/
theorem isStar_wire {m : Nfa} (hm : m.Valid) (hfree : Free m k) (hs : m.start = some s) :
    IsStar m k (wire (withTwo m k hfree) (starEdges m s m.stateCount (m.stateCount + 1))
      m.stateCount (m.stateCount + 1)) := by
  have hvalid : (withTwo m k hfree).Valid := valid_withTwo hm
  have hcount : (withTwo m k hfree).stateCount = m.stateCount + 2 := stateCount_withTwo
  have hrange := starEdges_lt hm hs
  rw [← hcount] at hrange
  exact {
    valid := valid_wire hvalid hrange (by omega) (by omega)
    labels := by rw [labels_wire, toList_labels_withTwo]
    start := start_wire
    mem_finals := fun x => mem_finals_wire
    -- the edges of the body and those that were added, as two lists put together
    edge := fun x b y => by
      rw [edge_wire fun e he => hvalid.size_rows ▸ (hrange e he).1, edge_withTwo,
        mem_starEdges, hs, Option.some.injEq]
    mem_alphabet := fun c => by
      rw [mem_alphabet_wire]
      simp [mem_starEdges]
    ties := ties_wire }

/-- One round of the loop, which does not use the workshop. -/
theorem run_stepBack {inner old : Nat} : (do
      let n ← (liftM (Nfa.addTransition n old .epsilon inner) : Build Nfa)
      liftM (n.addTransition old .epsilon f)).run w = (stepBack inner f n old).map (·, w) := by
  rw [run_lift_bind, stepBack]
  cases n.addTransition old .epsilon inner with
  | error e => rfl
  | ok n' => exact run_lift

/-- A repetition is made of any fragment with a start whose labels are not fresh ones. The
loop over the final states of the body comes first, and the two new states are wired
behind it. -/
theorem run_star {m : Nfa} (hm : m.Valid) (hfree : Free m w.next) (hs : m.start = some s) :
    ∃ n, (star m).run w = .ok (n, { w with next := w.next + 2 }) ∧ IsStar m w.next n := by
  refine ⟨_, ?_, isStar_wire hm hfree hs⟩
  have hvalid : (withTwo m w.next hfree).Valid := valid_withTwo hm
  have hcount : (withTwo m w.next hfree).stateCount = m.stateCount + 2 := stateCount_withTwo
  have hrows : ((withTwo m w.next hfree).withFinals ∅).rows.size = m.stateCount + 2 :=
    hvalid.size_rows.trans hcount
  have hlt : s < m.stateCount := hm.start_lt s hs
  -- the loop does not fail: there are two states more than those that it is about
  have hloop : m.finals.toList.foldlM (stepBack s (m.stateCount + 1))
      ((withTwo m w.next hfree).withFinals ∅) =
      .ok (((withTwo m w.next hfree).withFinals ∅).extend (m.finals.toList.flatMap fun old =>
        [(old, .epsilon, s), (old, .epsilon, m.stateCount + 1)]) []) := by
    refine foldlM_stepBack (fun old hold => ?_) (by omega) (by omega)
    have hold' := hm.finals_lt old hold
    omega
  show (liftM (startOf m) >>= _ : Build Nfa).run w = _
  rw [run_lift_bind, startOf_eq hs, ok_bind]
  refine (run_fresh_two hfree rfl).trans ?_
  refine (StateT.run_bind ..).trans ?_
  rw [run_foldlM_lift fun _ _ _ => run_stepBack]
  show ((m.finals.toList.foldlM (stepBack s (m.stateCount + 1))
    ((withTwo m w.next hfree).withFinals ∅)).map _ >>= _) = _
  rw [hloop]
  exact run_fork hvalid (by omega) (by omega) (by omega) (by omega)

-- ---------------------------------------------------------------------------
-- Two operands in one automaton
-- ---------------------------------------------------------------------------

/-- Two fragments can be merged. Operands of one tree always can: their labels are
numbered apart, and ties are between states. -/
structure Mergeable (l r : Nfa) : Prop where
  left : l.Valid
  right : r.Valid
  disjoint : ∀ x ∈ r.labels.toList, x ∉ l.labels.toList
  ties_fit : Nfa.TiesFit l.stateCount r

theorem Mergeable.firstShared? (h : Mergeable l r) : l.labels.firstShared? r.labels = none :=
  Labels.firstShared?_eq_none_iff.mpr h.disjoint

/-- The labels, the alphabet and the ties of two operands together, `extra` being new
labels. What combinators do with the start, the final states and the edges is said for
each of them. -/
structure IsMerge (l r : Nfa) (extra : List String) (n : Nfa) : Prop where
  valid : n.Valid
  labels : n.labels.toList = l.labels.toList ++ r.labels.toList ++ extra
  mem_alphabet : ∀ c, c ∈ n.alphabet ↔ c ∈ l.alphabet ∨ c ∈ r.alphabet
  ties : n.ties = l.ties ++ r.ties.map (Nfa.raiseTie l.stateCount)

/-- There are as many states as those of both operands, and the new ones. -/
theorem IsMerge.stateCount {extra : List String} (h : IsMerge l r extra n) :
    n.stateCount = l.stateCount + r.stateCount + extra.length := by
  rw [StateTable.stateCount_eq h.labels, List.length_append, List.length_append,
    Labels.length_toList, Labels.length_toList]
  rfl

/-- A loop that joins some states to one adds a transition for each. -/
theorem joinAll_eq {sources : List Nat} (hsources : ∀ x ∈ sources, x < n.rows.size)
    (ht : y < n.rows.size) :
    joinAll n sources y = .ok (n.extend (sources.map fun x => (x, .epsilon, y)) []) := by
  refine (Nfa.foldlM_extend (fun x => [(x, .epsilon, y)]) (fun _ => [])
    fun es ts x hx => ?_).trans ?_
  · rw [Nfa.addTransition_extend (hsources x hx) ht, Nfa.extend_extend, List.append_nil]
  · rw [List.flatMap_eq_nil_iff.mpr fun _ _ => rfl, List.map_eq_flatMap]

/-- A loop that makes states final, which the right operand's states are once they are
raised. -/
theorem foldlM_addFinal {states : List Nat} {offset : Nat}
    (h : ∀ x ∈ states, x + offset < n.stateCount) :
    ∃ finals, (∀ x, x ∈ finals ↔ x ∈ n.finals ∨ ∃ t ∈ states, x = t + offset) ∧
      states.foldlM (fun n f => n.addFinal (f + offset)) n = .ok (n.withFinals finals) := by
  induction states generalizing n with
  | nil => exact ⟨n.finals, by simp, rfl⟩
  | cons t states ih =>
    -- the loop goes on with one more final state
    obtain ⟨finals, hfinals, hrun⟩ := ih (n := n.withFinals (n.finals.insert (t + offset)))
      fun x hx => h x (List.mem_cons_of_mem _ hx)
    refine ⟨finals, fun x => ?_, ?_⟩
    · rw [hfinals]
      show x ∈ n.finals.insert (t + offset) ∨ _ ↔ _
      simp only [SortedSet.mem_insert, List.mem_cons, exists_eq_or_imp]
      rw [or_assoc, or_left_comm]
    · rw [List.foldlM_cons, Nfa.addFinal_eq (h t List.mem_cons_self), ok_bind, hrun]
      rfl

-- ---------------------------------------------------------------------------
-- Concatenation
-- ---------------------------------------------------------------------------

/-- The final states of `l` lead to the start of `r`. Final are those of `r` alone, and
the start is that of `l`; the states of `r` are raised. -/
structure IsConcat (l r n : Nfa) : Prop extends IsMerge l r [] n where
  start : n.start = l.start
  mem_finals : ∀ x, x ∈ n.finals ↔ ∃ t ∈ r.finals, x = t + l.stateCount
  edge : ∀ x b y, n.Edge x b y ↔ l.Edge x b y ∨
    (∃ s t, r.Edge s b t ∧ x = s + l.stateCount ∧ y = t + l.stateCount) ∨
    b = .epsilon ∧ x ∈ l.finals ∧ ∃ s, r.start = some s ∧ y = s + l.stateCount

/-- The transitions from the final states of `l` to the start `s` of `r`. -/
def concatEdges (l : Nfa) (s : Nat) : List (Nat × Symbol × Nat) :=
  l.finals.toList.map fun x => (x, .epsilon, s + l.stateCount)

/-- They lead from a final state of `l` to the start of `r`, raised by the number of
states before it. -/
theorem mem_concatEdges :
    (x, a, y) ∈ concatEdges l s ↔ a = .epsilon ∧ x ∈ l.finals ∧ y = s + l.stateCount := by
  simp only [concatEdges, List.mem_map, SortedSet.mem_toList, Prod.mk.injEq]
  constructor
  · rintro ⟨_, hx, rfl, rfl, rfl⟩
    exact ⟨rfl, hx, rfl⟩
  · rintro ⟨rfl, hx, rfl⟩
    exact ⟨x, hx, rfl, rfl, rfl⟩

/-- All these transitions are between states of the merged automaton, so none of them is
refused. -/
theorem concatEdges_lt (hl : l.Valid) (hs : s < r.stateCount) :
    ∀ e ∈ concatEdges l s, e.1 < l.stateCount + r.stateCount ∧
      e.2.2 < l.stateCount + r.stateCount := by
  intro ⟨x, a, y⟩ he
  obtain ⟨-, hx, rfl⟩ := mem_concatEdges.mp he
  have hlt := hl.finals_lt x hx
  show x < _ ∧ s + l.stateCount < _
  omega

/-- The joined operands, with the final states of the right one, are the concatenation. It
has no new states, and the start of the left operand is its start. -/
theorem isConcat_extend {finals : SortedSet Nat} (h : Mergeable l r) (hs : r.start = some s)
    (hfinals : ∀ x, x ∈ finals ↔ ∃ t ∈ r.finals, x = t + l.stateCount) :
    IsConcat l r ((((l.merge r h.firstShared?).withFinals ∅).extend (concatEdges l s)
      []).withFinals finals) := by
  have hvalid : (l.merge r h.firstShared?).Valid := h.left.merge h.right
  have hcount : (l.merge r h.firstShared?).stateCount = l.stateCount + r.stateCount :=
    Nfa.stateCount_merge
  have hrange := concatEdges_lt h.left (h.right.start_lt s hs)
  rw [← hcount] at hrange
  exact {
    valid := ((valid_cleared hvalid).extend hrange).withFinals fun x hx => by
      obtain ⟨t, ht, rfl⟩ := (hfinals x).mp hx
      have hlt := h.right.finals_lt t ht
      show _ < (l.merge r h.firstShared?).stateCount
      omega
    labels := by
      rw [List.append_nil]
      exact Nfa.toList_labels_merge (h := h.firstShared?)
    start := rfl
    mem_finals := fun x => by rw [Nfa.finals_withFinals, hfinals]
    -- the edges of both operands side by side, and those that join them
    edge := fun x b y => by
      rw [Nfa.edge_withFinals, Nfa.edge_extend fun e he => hvalid.size_rows.symm ▸
        (hrange e he).1, mem_concatEdges, Nfa.edge_withFinals, Nfa.edge_merge h.left, or_assoc]
      simp only [hs, Option.some.injEq, exists_eq_left']
    mem_alphabet := fun c => by
      rw [Nfa.alphabet_withFinals, Nfa.mem_alphabet_extend, Nfa.alphabet_withFinals]
      simp [mem_concatEdges]
    ties := by
      show (l.merge r h.firstShared?).ties ++ _ = _
      simp }

/-- A concatenation is made of fragments that can be merged. It takes no fresh label, so
the labels of the result are those of the operands. -/
theorem run_concat (h : Mergeable l r) (hs : r.start = some s) :
    ∃ n, (concat l r).run w = .ok (n, w) ∧ IsConcat l r n := by
  have hvalid : (l.merge r h.firstShared?).Valid := h.left.merge h.right
  have hcount : (l.merge r h.firstShared?).stateCount = l.stateCount + r.stateCount :=
    Nfa.stateCount_merge
  have hrows : ((l.merge r h.firstShared?).withFinals ∅).rows.size =
      l.stateCount + r.stateCount := hvalid.size_rows.trans hcount
  -- the final states of `l` are joined to the start of `r`
  have hjoin : joinAll ((l.merge r h.firstShared?).withFinals ∅) l.finals.toList
      (s + l.stateCount) =
      .ok (((l.merge r h.firstShared?).withFinals ∅).extend (concatEdges l s) []) := by
    have hlt := h.right.start_lt s hs
    refine joinAll_eq (fun x hx => ?_) (by omega)
    have hlt' := h.left.finals_lt x hx
    omega
  have hlt : ∀ x ∈ r.finals.toList, x + l.stateCount <
      (((l.merge r h.firstShared?).withFinals ∅).extend (concatEdges l s) []).stateCount := by
    intro x hx
    have hlt := h.right.finals_lt x hx
    show _ < (l.merge r h.firstShared?).stateCount
    omega
  -- and then the final states of `r` become final
  obtain ⟨finals, hfinals, hrun⟩ := foldlM_addFinal hlt
  have hfinals' : ∀ x, x ∈ finals ↔ ∃ t ∈ r.finals, x = t + l.stateCount := fun x => by
    rw [hfinals]
    simp
  refine ⟨_, ?_, isConcat_extend h hs hfinals'⟩
  show (liftM (startOf r) >>= _ : Build Nfa).run w = _
  rw [run_lift_bind, startOf_eq hs, ok_bind, run_lift_bind,
    Nfa.absorb_eq_ok h.firstShared? h.ties_fit, ok_bind]
  show (liftM (joinAll ((l.merge r h.firstShared?).withFinals ∅) l.finals.toList
    (s + l.stateCount)) >>= _ : Build Nfa).run w = _
  rw [run_lift_bind, hjoin, ok_bind, run_foldlM_lift fun _ _ _ => run_lift, hrun]
  rfl

-- ---------------------------------------------------------------------------
-- Alternatives
-- ---------------------------------------------------------------------------

/-- A start that leads to both starts, and a final state that both lead to. The states of
`l` keep their numbers, those of `r` are raised, and the new ones come last. -/
structure IsUnion (l r : Nfa) (next : Nat) (n : Nfa) : Prop extends
    IsMerge l r [freshLabel next, freshLabel (next + 1)] n where
  start : n.start = some (l.stateCount + r.stateCount)
  mem_finals : ∀ x, x ∈ n.finals ↔ x = l.stateCount + r.stateCount + 1
  edge : ∀ x b y, n.Edge x b y ↔ l.Edge x b y ∨
    (∃ s t, r.Edge s b t ∧ x = s + l.stateCount ∧ y = t + l.stateCount) ∨
    b = .epsilon ∧
      ((x ∈ l.finals ∨ ∃ t ∈ r.finals, x = t + l.stateCount) ∧
          y = l.stateCount + r.stateCount + 1 ∨
        x = l.stateCount + r.stateCount ∧
          (l.start = some y ∨ ∃ s, r.start = some s ∧ y = s + l.stateCount))

/-- Labels that are fresh for both operands are so for them together. -/
theorem Free.merge {h : l.labels.firstShared? r.labels = none} (hl : Free l k) (hr : Free r k) :
    Free (l.merge r h) k := by
  intro i hi hmem
  rw [Nfa.toList_labels_merge, List.mem_append] at hmem
  exact hmem.elim (hl i hi) (hr i hi)

/-- The transitions of a union whose start state `s` and final state `f` are new; `i` and `j`
are the starts of the operands. -/
def unionEdges (l r : Nfa) (i j s f : Nat) : List (Nat × Symbol × Nat) :=
  ((l.finals.toList ++ r.finals.toList.map (· + l.stateCount)).map fun x => (x, .epsilon, f)) ++
    [(s, .epsilon, i), (s, .epsilon, j + l.stateCount)]

/-- The edges of a union lead from all final states to the new one, and from the new start
to both operands. States of the right operand are raised. -/
theorem mem_unionEdges {i j : Nat} :
    (x, a, y) ∈ unionEdges l r i j s f ↔ a = .epsilon ∧
      ((x ∈ l.finals ∨ ∃ t ∈ r.finals, x = t + l.stateCount) ∧ y = f ∨
        x = s ∧ (i = y ∨ y = j + l.stateCount)) := by
  simp only [unionEdges, List.mem_append, List.mem_map, List.mem_cons, List.not_mem_nil,
    or_false, Prod.mk.injEq, SortedSet.mem_toList]
  constructor
  · rintro (⟨_, hx | ⟨t, ht, rfl⟩, rfl, rfl, rfl⟩ | ⟨rfl, rfl, rfl⟩ | ⟨rfl, rfl, rfl⟩)
    · -- one case for each transition that is added
      exact ⟨rfl, .inl ⟨.inl hx, rfl⟩⟩
    · exact ⟨rfl, .inl ⟨.inr ⟨t, ht, rfl⟩, rfl⟩⟩
    · exact ⟨rfl, .inr ⟨rfl, .inl rfl⟩⟩
    · exact ⟨rfl, .inr ⟨rfl, .inr rfl⟩⟩
  · rintro ⟨rfl, ⟨hx | ⟨t, ht, rfl⟩, rfl⟩ | ⟨rfl, rfl | rfl⟩⟩
    · exact .inl ⟨x, .inl hx, rfl, rfl, rfl⟩
    · exact .inl ⟨_, .inr ⟨t, ht, rfl⟩, rfl, rfl, rfl⟩
    · exact .inr (.inl ⟨rfl, rfl, rfl⟩)
    · exact .inr (.inr ⟨rfl, rfl, rfl⟩)

/-- All these transitions are between states of the merged automaton and the new ones, so
none of them is refused. -/
theorem unionEdges_lt {i j : Nat} (h : Mergeable l r) (hi : l.start = some i)
    (hj : r.start = some j) : ∀ e ∈ unionEdges l r i j (l.stateCount + r.stateCount)
      (l.stateCount + r.stateCount + 1), e.1 < l.stateCount + r.stateCount + 2 ∧
        e.2.2 < l.stateCount + r.stateCount + 2 := by
  intro ⟨x, a, y⟩ he
  have hi' := h.left.start_lt i hi
  have hj' := h.right.start_lt j hj
  show x < _ ∧ y < _
  obtain ⟨-, ⟨hx | ⟨t, ht, rfl⟩, rfl⟩ | ⟨rfl, hy⟩⟩ := mem_unionEdges.mp he
  · have hlt := h.left.finals_lt x hx
    omega
  · have hlt := h.right.finals_lt t ht
    omega
  · omega

/-- The wired automaton is the union: both operands side by side, with two states around
them. -/
theorem isUnion_wire {i j : Nat} (h : Mergeable l r) (hfree : Free (l.merge r h.firstShared?) k)
    (hi : l.start = some i) (hj : r.start = some j) :
    IsUnion l r k (wire (withTwo (l.merge r h.firstShared?) k hfree)
      (unionEdges l r i j (l.stateCount + r.stateCount) (l.stateCount + r.stateCount + 1))
      (l.stateCount + r.stateCount) (l.stateCount + r.stateCount + 1)) := by
  have hvalid : (withTwo (l.merge r h.firstShared?) k hfree).Valid :=
    valid_withTwo (h.left.merge h.right)
  have hboth : (l.merge r h.firstShared?).stateCount = l.stateCount + r.stateCount :=
    Nfa.stateCount_merge
  have hcount : (withTwo (l.merge r h.firstShared?) k hfree).stateCount =
      l.stateCount + r.stateCount + 2 := stateCount_withTwo.trans (congrArg (· + 2) hboth)
  have hrange := unionEdges_lt h hi hj
  rw [← hcount] at hrange
  exact {
    valid := valid_wire hvalid hrange (by omega) (by omega)
    labels := by rw [labels_wire, toList_labels_withTwo, Nfa.toList_labels_merge]
    start := start_wire
    mem_finals := fun x => mem_finals_wire
    -- the edges of both operands side by side, and those around them
    edge := fun x b y => by
      rw [edge_wire fun e he => hvalid.size_rows ▸ (hrange e he).1, edge_withTwo,
        Nfa.edge_merge h.left, mem_unionEdges, or_assoc, hi, hj]
      simp only [Option.some.injEq, exists_eq_left']
    mem_alphabet := fun c => by
      rw [mem_alphabet_wire]
      simp [mem_unionEdges]
    ties := by
      rw [ties_wire]
      exact Nfa.ties_merge (h := h.firstShared?) }

/-- A union is made of fragments that can be merged and whose labels are not fresh ones.
The operands are merged first, and the two new states come behind them. -/
theorem run_union {i j : Nat} (h : Mergeable l r) (hl : Free l w.next) (hr : Free r w.next)
    (hi : l.start = some i) (hj : r.start = some j) :
    ∃ n, (union l r).run w = .ok (n, { w with next := w.next + 2 }) ∧
      IsUnion l r w.next n := by
  have hfree : Free (l.merge r h.firstShared?) w.next := hl.merge hr
  refine ⟨_, ?_, isUnion_wire h hfree hi hj⟩
  have hvalid : (withTwo (l.merge r h.firstShared?) w.next hfree).Valid :=
    valid_withTwo (h.left.merge h.right)
  have hboth : (l.merge r h.firstShared?).stateCount = l.stateCount + r.stateCount :=
    Nfa.stateCount_merge
  have hcount : (withTwo (l.merge r h.firstShared?) w.next hfree).stateCount =
      l.stateCount + r.stateCount + 2 := stateCount_withTwo.trans (congrArg (· + 2) hboth)
  have hrows : ((withTwo (l.merge r h.firstShared?) w.next hfree).withFinals ∅).rows.size =
      l.stateCount + r.stateCount + 2 := hvalid.size_rows.trans hcount
  have hi' : i < l.stateCount := h.left.start_lt i hi
  have hj' : j < r.stateCount := h.right.start_lt j hj
  -- the final states of both operands are joined to the new one
  have hjoin : joinAll ((withTwo (l.merge r h.firstShared?) w.next hfree).withFinals ∅)
      (l.finals.toList ++ r.finals.toList.map (· + l.stateCount))
      (l.stateCount + r.stateCount + 1) =
        .ok (((withTwo (l.merge r h.firstShared?) w.next hfree).withFinals ∅).extend
          ((l.finals.toList ++ r.finals.toList.map (· + l.stateCount)).map fun x =>
            (x, .epsilon, l.stateCount + r.stateCount + 1)) []) := by
    refine joinAll_eq (fun x hx => ?_) (by omega)
    rcases List.mem_append.mp hx with hx | hx
    · have hlt := h.left.finals_lt x hx
      omega
    · obtain ⟨t, ht, rfl⟩ := List.mem_map.mp hx
      have hlt := h.right.finals_lt t ht
      omega
  show (liftM (startOf l) >>= _ : Build Nfa).run w = _
  rw [run_lift_bind, startOf_eq hi, ok_bind, run_lift_bind, startOf_eq hj, ok_bind,
    run_lift_bind, Nfa.absorb_eq_ok h.firstShared? h.ties_fit, ok_bind]
  refine (run_fresh_two hfree rfl).trans ?_
  rw [hboth]
  show (liftM (joinAll ((withTwo (l.merge r h.firstShared?) w.next hfree).withFinals ∅)
    (l.finals.toList ++ r.finals.toList.map (· + l.stateCount))
    (l.stateCount + r.stateCount + 1)) >>= _ : Build Nfa).run _ = _
  rw [run_lift_bind, hjoin, ok_bind]
  exact run_fork hvalid (by omega) (by omega) (by omega) (by omega)

end Workshop

end PatternAutomata
