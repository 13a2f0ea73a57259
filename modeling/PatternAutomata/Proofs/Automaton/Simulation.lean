import PatternAutomata.Proofs.Automaton.Invariant
import PatternAutomata.Proofs.Outcome

/-!
# Pattern automata — what a simulation computes

Following all paths at once finds the states at the end of each: the set held
after a word has exactly the states that a path reading the word leads to. On an
automaton whose parts fit together no step can fail, so a word is accepted
exactly if a path from the start to a final state reads it.

## Results

* `mem_closure`, `mem_after`, `mem_afterWord` — sets of states as ends of paths.
* `heldAfter_eq`    — none of the steps fails.
* `accepts_eq`      — acceptance looks at the set held after the whole word.
* `accepts_eq_ok`   — and answers whether there is an accepting path.
-/

namespace PatternAutomata

namespace Nfa

variable {n : Nfa} {set : SortedSet Nat} {s t : Nat} {c : Char} {w : List Char}

-- ---------------------------------------------------------------------------
-- Sets of states
-- ---------------------------------------------------------------------------

/-- The closure of a set has the ends of the paths that read nothing. -/
theorem mem_closure : t ∈ n.closure set ↔ ∃ s ∈ set, n.Path s [] t := by
  simp only [closure, SortedSet.mem_ofList, mem_explore_iff, SortedSet.mem_toList,
    path_nil_iff_reaches]

/-- Where a letter leads from a set: along one edge that reads it, and on along a path
that reads nothing. Nothing is read in front of the letter, as the sets that are held are
closed. -/
theorem mem_after :
    t ∈ n.after set c ↔ ∃ s ∈ set, ∃ x, n.Edge s (.char c) x ∧ n.Path x [] t := by
  simp only [after, mem_closure, SortedSet.mem_ofList, List.mem_flatMap, SortedSet.mem_toList]
  constructor
  · rintro ⟨x, ⟨s, hs, hx⟩, hp⟩
    exact ⟨s, hs, x, hx, hp⟩
  · rintro ⟨s, hs, x, hx, hp⟩
    exact ⟨x, ⟨s, hs, hx⟩, hp⟩

/-- The set that is held after a word, letter by letter. -/
def afterWord (n : Nfa) (set : SortedSet Nat) (w : List Char) : SortedSet Nat :=
  w.foldl n.after set

/-- Nothing more is reached from the set without reading. All sets that a simulation holds
are closed, which is why a step need not look for `ε` in front of its letter. -/
def Closed (n : Nfa) (set : SortedSet Nat) : Prop :=
  ∀ s ∈ set, ∀ t, n.Path s [] t → t ∈ set

theorem closed_closure : n.Closed (n.closure set) := by
  intro s hs t hp
  obtain ⟨x, hx, hxs⟩ := mem_closure.mp hs
  exact mem_closure.mpr ⟨x, hx, hxs.trans hp⟩

theorem closed_after : n.Closed (n.after set c) := closed_closure

/-- The set to begin with is closed. It is empty if there is no start. -/
theorem closed_initial : n.Closed n.initial := by
  unfold initial
  cases n.start with
  | none => exact fun s hs => absurd hs SortedSet.not_mem_empty
  | some s => exact closed_closure

/-- The set after a word has the ends of the paths that read the word. This is the heart
of the simulation: letter by letter it does what a single path does, for all paths at
once. -/
theorem mem_afterWord (hset : n.Closed set) :
    t ∈ n.afterWord set w ↔ ∃ s ∈ set, n.Path s w t := by
  induction w generalizing set with
  | nil =>
    constructor
    · exact fun ht => ⟨t, ht, .refl t⟩
    · rintro ⟨s, hs, hp⟩
      exact hset s hs t hp
  | cons c w ih =>
    -- the set after one letter is closed, so the hypothesis of the induction holds of it
    rw [show n.afterWord set (c :: w) = n.afterWord (n.after set c) w from rfl, ih closed_after]
    constructor
    · rintro ⟨y, hy, hp⟩
      obtain ⟨s, hs, x, he, hx⟩ := mem_after.mp hy
      exact ⟨s, hs, path_cons_iff.mpr ⟨s, x, .refl s, he, hx.trans hp⟩⟩
    · rintro ⟨s, hs, hp⟩
      -- what the path does in front of the letter stays inside of the set
      obtain ⟨x, y, hx, he, hy⟩ := path_cons_iff.mp hp
      exact ⟨y, mem_after.mpr ⟨x, hset s hs x hx, y, he, .refl y⟩, hy⟩

/-- The set to begin with has what the start reaches without reading. -/
theorem mem_initial : t ∈ n.initial ↔ ∃ s, n.start = some s ∧ n.Path s [] t := by
  unfold initial
  cases n.start with
  | none => simp
  | some s => simp [mem_closure]

/-- After a word exactly the states are held that it leads to from the start, `ε` included
at every place. -/
theorem mem_afterWord_initial :
    t ∈ n.afterWord n.initial w ↔ ∃ s, n.start = some s ∧ n.Path s w t := by
  rw [mem_afterWord closed_initial]
  constructor
  · rintro ⟨x, hx, hp⟩
    obtain ⟨s, hs, hsx⟩ := mem_initial.mp hx
    exact ⟨s, hs, hsx.trans hp⟩
  · rintro ⟨s, hs, hp⟩
    exact ⟨s, mem_initial.mpr ⟨s, hs, .refl s⟩, hp⟩

/-- From the empty set nothing is reached. A determinized automaton leaves this set out. -/
theorem afterWord_empty (w : List Char) : n.afterWord ∅ w = ∅ := by
  refine SortedSet.ext fun t => ?_
  rw [mem_afterWord fun s hs => absurd hs SortedSet.not_mem_empty]
  simp

-- ---------------------------------------------------------------------------
-- Acceptance
-- ---------------------------------------------------------------------------

/-- Where every state has a row, a set is in range if its members exist. -/
theorem inRange_iff (hn : n.Valid) : n.inRange set = true ↔ ∀ s ∈ set, s < n.stateCount := by
  simp [inRange, hn.size_rows]

theorem closure_lt (hn : n.Valid) (hset : ∀ s ∈ set, s < n.stateCount) (ht : t ∈ n.closure set) :
    t < n.stateCount := by
  obtain ⟨s, hs, hp⟩ := mem_closure.mp ht
  exact hn.path_lt hp (hset s hs)

/-- No step leaves the states that exist, not even from a set that holds other numbers. -/
theorem after_lt (hn : n.Valid) (ht : t ∈ n.after set c) : t < n.stateCount := by
  obtain ⟨s, _, x, he, hp⟩ := mem_after.mp ht
  exact hn.path_lt hp (hn.edge_lt _ _ _ he)

theorem initial_lt (hn : n.Valid) (ht : t ∈ n.initial) : t < n.stateCount := by
  obtain ⟨s, hs, hp⟩ := mem_initial.mp ht
  exact hn.path_lt hp (hn.start_lt s hs)

/-- A step from states that exist does not fail: it reads their rows and those of the
states that it reaches, and they all exist. -/
theorem step_eq (hn : n.Valid) (hset : ∀ s ∈ set, s < n.stateCount) (c : Char) :
    n.step set c = .ok (n.after set c) := by
  have hafter : n.inRange (n.after set c) = true :=
    (inRange_iff hn).mpr fun t ht => after_lt hn ht
  simp [step, (inRange_iff hn).mpr hset, hafter]

theorem epsilonClosure_eq (hn : n.Valid) (hset : ∀ s ∈ set, s < n.stateCount) :
    n.epsilonClosure set = .ok (n.closure set) := by
  have hclosure : n.inRange (n.closure set) = true :=
    (inRange_iff hn).mpr fun t ht => closure_lt hn hset ht
  simp [epsilonClosure, hclosure]

theorem initialSet_eq (hn : n.Valid) : n.initialSet = .ok n.initial := by
  have hinitial : n.inRange n.initial = true :=
    (inRange_iff hn).mpr fun t ht => initial_lt hn ht
  simp [initialSet, hinitial]

/-- Steps in turn do not fail, since each one leads to states that exist. -/
theorem foldlM_step_eq (hn : n.Valid) (hset : ∀ s ∈ set, s < n.stateCount) (w : List Char) :
    w.foldlM n.step set = .ok (n.afterWord set w) := by
  induction w generalizing set with
  | nil => rfl
  | cons c w ih =>
    rw [List.foldlM_cons, step_eq hn hset c, ok_bind]
    exact ih fun t ht => after_lt hn ht

/-- Holding sets of states cannot fail, so what is held after a word is `afterWord`. -/
theorem heldAfter_eq (hn : n.Valid) (w : List Char) :
    n.heldAfter w = .ok (n.afterWord n.initial w) := by
  unfold heldAfter
  rw [initialSet_eq hn, ok_bind]
  exact foldlM_step_eq hn (fun s hs => initial_lt hn hs) w

/-- Acceptance may stop as soon as nothing is held, but answers as if it had gone on to
the end. -/
theorem acceptsFrom_eq (hn : n.Valid) (hset : ∀ s ∈ set, s < n.stateCount) (w : List Char) :
    n.acceptsFrom set w = .ok ((n.afterWord set w).toList.any n.isFinal) := by
  induction w generalizing set with
  | nil => rfl
  | cons c w ih =>
    unfold acceptsFrom
    split
    · -- once nothing is held nothing will be
      rename_i hempty
      have hset : set = ∅ := SortedSet.ext fun s => by
        simp [SortedSet.isEmpty_iff.mp hempty s]
      rw [hset, afterWord_empty]
      rfl
    · rw [step_eq hn hset c]
      exact ih fun t ht => after_lt hn ht

/-- Acceptance looks at the set held after the whole word: is one of its members final? -/
theorem accepts_eq (hn : n.Valid) (word : String) :
    n.accepts word = .ok ((n.afterWord n.initial word.toList).toList.any n.isFinal) := by
  unfold accepts
  rw [initialSet_eq hn]
  exact acceptsFrom_eq hn (fun s hs => initial_lt hn hs) _

/-- One of them is final exactly if some path from the start to a final state reads the
word. -/
theorem any_isFinal_afterWord_iff :
    (n.afterWord n.initial w).toList.any n.isFinal = true ↔ n.Accepting w := by
  simp only [List.any_eq_true, SortedSet.mem_toList, mem_afterWord_initial, StateTable.isFinal,
    decide_eq_true_eq]
  constructor
  · rintro ⟨t, ⟨s, hs, hp⟩, ht⟩
    exact ⟨s, hs, t, ht, hp⟩
  · rintro ⟨s, hs, t, ht, hp⟩
    exact ⟨t, ⟨s, hs, hp⟩, ht⟩

/-- An automaton that fits together answers whether there is an accepting path. The answer
is there for every word, so acceptance is decided by running the automaton. -/
theorem accepts_eq_ok (hn : n.Valid) (word : String) :
    ∃ b, n.accepts word = .ok b ∧ (b = true ↔ n.Accepting word.toList) :=
  ⟨_, accepts_eq hn word, any_isFinal_afterWord_iff⟩

end Nfa

end PatternAutomata
