import PatternAutomata.Automaton.Simulation

/-!
# Pattern automata — paths

A path through a nondeterministic automaton is a chain of transitions, and what
it reads is what they read. Paths are put together and taken apart here at the
letters of their words; what an automaton's transitions are is stated by `Edge`,
the form in which the constructions describe their results.

## Results

* `mem_transitions_iff`  — the listed transitions are the edges.
* `path_append_iff`      — a path is split where its word is.
* `path_cons_iff`        — a path that reads something reads it by one transition.
* `path_nil_iff_reaches` — paths that read nothing are what a closure searches.
* `Path.map`             — a renumbering that keeps edges keeps paths.
* `leadsTo_append_iff`   — a word leads somewhere by way of where its beginning leads.
-/

namespace PatternAutomata

namespace Nfa

variable {n m : Nfa} {s t x y : Nat} {a : Symbol} {c : Char} {u v w : List Char}

-- ---------------------------------------------------------------------------
-- Edges
-- ---------------------------------------------------------------------------

/-- A transition on `a` leads from `s` to `t`. Edges say no more than the rows do, but say
it as a relation, which is how constructions describe what they make. -/
def Edge (n : Nfa) (s : Nat) (a : Symbol) (t : Nat) : Prop := t ∈ n.successors a s

theorem edge_iff : n.Edge s a t ↔ t ∈ rowTargets (n.rows.getD s ∅) a := Iff.rfl

theorem not_edge_of_size_le (h : n.rows.size ≤ s) : ¬ n.Edge s a t := by
  rw [edge_iff, Rows.getD_of_size_le h]
  exact SortedSet.not_mem_empty

/-- The listed transitions are the edges. The list is what callers see; proofs go over to
edges first and come back at the end. -/
theorem mem_transitions_iff : (s, a, t) ∈ n.transitions ↔ n.Edge s a t := by
  have hrow : (s, a, t) ∈ n.transitions ↔
      ∃ row, n.rows[s]? = some row ∧ t ∈ rowTargets row a := by
    simp only [transitions, List.mem_flatMap, List.mem_map, Prod.exists, Prod.mk.injEq,
      List.mem_zipIdx_iff_getElem?, Array.getElem?_toList]
    constructor
    · rintro ⟨row, i, hi, b, r, hm, rfl, rfl, rfl⟩
      exact ⟨row, hi, mem_rowMoves.mp hm⟩
    · rintro ⟨row, hs, ht⟩
      exact ⟨row, s, hs, a, t, mem_rowMoves.mpr ht, rfl, rfl, rfl⟩
  -- a missing row lists nothing, and is read as an empty one
  rw [hrow, edge_iff, Array.getD_eq_getD_getElem?]
  cases hs : n.rows[s]? with
  | none => simp [rowTargets]
  | some row => simp

-- ---------------------------------------------------------------------------
-- Putting paths together
-- ---------------------------------------------------------------------------

theorem Path.cons (h : n.Edge s a t) (hp : n.Path t w x) : n.Path s (a.reads ++ w) x :=
  .step (mem_transitions_iff.mpr h) hp

theorem Path.edge (h : n.Edge s a t) : n.Path s a.reads t := by
  have hp := Path.cons h (.refl t)
  rwa [List.append_nil] at hp

theorem Path.epsilon (h : n.Edge s .epsilon t) : n.Path s [] t := Path.edge h

/-- Two paths in turn are one, which reads both words. -/
theorem Path.trans (hu : n.Path s u t) (hv : n.Path t v x) : n.Path s (u ++ v) x := by
  induction hu with
  | refl s => exact hv
  | step he _ ih =>
    rw [List.append_assoc]
    exact .step he (ih hv)

/-- A path that first reads nothing. The two words are the second one as it stands, so
that no empty word is left to be simplified away. -/
theorem Path.after_nil (hu : n.Path s [] t) (hv : n.Path t v x) : n.Path s v x := hu.trans hv

/-- A renumbering that keeps edges keeps paths. Operands that are put together keep their
edges under raised numbers, so what could be read in them can still be read. -/
theorem Path.map {f : Nat → Nat} (h : ∀ s a t, n.Edge s a t → m.Edge (f s) a (f t))
    (hp : n.Path s w t) : m.Path (f s) w (f t) := by
  induction hp with
  | refl s => exact .refl _
  | step he _ ih => exact .cons (h _ _ _ (mem_transitions_iff.mp he)) ih

theorem Path.mono (h : ∀ s a t, n.Edge s a t → m.Edge s a t) (hp : n.Path s w t) :
    m.Path s w t :=
  hp.map (f := id) h

/-- What is kept by every edge is kept by every path. -/
theorem Path.invariant {P : Nat → Prop} (h : ∀ s a t, n.Edge s a t → P s → P t)
    (hp : n.Path s w t) (hs : P s) : P t := by
  induction hp with
  | refl s => exact hs
  | step he _ ih => exact ih (h _ _ _ (mem_transitions_iff.mp he) hs)

-- ---------------------------------------------------------------------------
-- Taking paths apart
-- ---------------------------------------------------------------------------

/-- A path that reads something reads its first letter by one transition: before it the
path reads nothing, and after it the rest. -/
theorem path_cons_iff :
    n.Path s (c :: w) t ↔ ∃ x y, n.Path s [] x ∧ n.Edge x (.char c) y ∧ n.Path y w t := by
  constructor
  · intro h
    -- the induction is on the path, so the word has to be a variable
    generalize hv : c :: w = v at h
    induction h with
    | refl s => cases hv
    | @step s y t a v he hp ih =>
      rw [mem_transitions_iff] at he
      cases a with
      | epsilon =>
        -- an edge that reads nothing is put in front of the part before the letter
        obtain ⟨x, z, hx, hz, ht⟩ := ih hv
        exact ⟨x, z, (Path.epsilon he).trans hx, hz, ht⟩
      | char d =>
        cases hv
        exact ⟨s, y, .refl s, he, hp⟩
  · rintro ⟨x, y, hx, he, ht⟩
    exact hx.trans (.cons he ht)

/-- A path is split where its word is. Where exactly is not determined, since edges on `ε`
at the seam may go to either part. -/
theorem path_append_iff :
    n.Path s (u ++ v) t ↔ ∃ x, n.Path s u x ∧ n.Path x v t := by
  constructor
  · intro h
    induction u generalizing s with
    | nil => exact ⟨s, .refl s, h⟩
    | cons c u ih =>
      obtain ⟨x, y, hx, he, hy⟩ := path_cons_iff.mp h
      obtain ⟨z, hz, ht⟩ := ih hy
      exact ⟨z, path_cons_iff.mpr ⟨x, y, hx, he, hz⟩, ht⟩
  · rintro ⟨x, hu, hv⟩
    exact hu.trans hv

/-- Paths that read nothing are what a closure searches. This connects the simulation,
which explores, with the definition of acceptance, which speaks of paths. -/
theorem path_nil_iff_reaches : n.Path s [] t ↔ Reaches (n.successors .epsilon) s t := by
  constructor
  · intro h
    -- the search lists its steps from the end, a path from the start
    have hfirst : ∀ {s y t : Nat}, n.Edge s .epsilon y → Reaches (n.successors .epsilon) y t →
        Reaches (n.successors .epsilon) s t := by
      intro s y t he hr
      induction hr with
      | refl => exact .step .refl he
      | step _ hz ih => exact .step ih hz
    generalize hw : ([] : List Char) = w at h
    induction h with
    | refl s => exact .refl
    | @step s y t a w he _ ih =>
      cases a with
      | epsilon => exact hfirst (mem_transitions_iff.mp he) (ih hw)
      | char c => cases hw
  · intro h
    induction h with
    | refl => exact .refl s
    | step _ hz ih => exact ih.trans (.epsilon hz)

-- ---------------------------------------------------------------------------
-- Paths from the start
-- ---------------------------------------------------------------------------

/-- The word leads from the start to `x`. -/
def LeadsTo (n : Nfa) (w : List Char) (x : Nat) : Prop := ∃ s, n.start = some s ∧ n.Path s w x

theorem LeadsTo.append (h : n.LeadsTo u x) (hp : n.Path x v y) : n.LeadsTo (u ++ v) y := by
  obtain ⟨s, hs, hu⟩ := h
  exact ⟨s, hs, hu.trans hp⟩

/-- A word leads somewhere by way of where its beginning leads. -/
theorem leadsTo_append_iff : n.LeadsTo (u ++ v) y ↔ ∃ x, n.LeadsTo u x ∧ n.Path x v y := by
  constructor
  · rintro ⟨s, hs, hp⟩
    obtain ⟨x, hu, hv⟩ := path_append_iff.mp hp
    exact ⟨x, ⟨s, hs, hu⟩, hv⟩
  · rintro ⟨x, hu, hv⟩
    exact hu.append hv

/-- A word is accepted if it leads to a final state. -/
theorem accepting_iff_leadsTo : n.Accepting w ↔ ∃ t ∈ n.finals, n.LeadsTo w t := by
  constructor
  · rintro ⟨s, hs, t, ht, hp⟩
    exact ⟨t, ht, s, hs, hp⟩
  · rintro ⟨t, ht, s, hs, hp⟩
    exact ⟨s, hs, t, ht, hp⟩

end Nfa

end PatternAutomata
