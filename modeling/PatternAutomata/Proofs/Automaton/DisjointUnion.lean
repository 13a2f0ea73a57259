import PatternAutomata.Proofs.Automaton.Store

/-!
# Pattern automata — two automata side by side

An automaton that absorbs another one has the states of both, those of the other
one with their numbers raised, and no transition leads from the one half to the
other. Whatever is searched from states of one half is found in that half alone,
as if the other were not there, and a search from states of both finds what two
searches find (`SideBySide`).

Two automata are merged if they share no label. There is one more condition: ties
are recorded between any two numbers, and where one of these is not a state of the
automaton that is absorbed, raising it may leave the range of words. All else that
is raised is a state.

## Results

* `path_merge_left`, `path_merge_right` — a path stays in the half that it starts in.
* `sideBySide_of_iff`   — so do searches that are described by paths.
* `Store.run_absorb`    — the merged automaton is the disjoint union, or there is a fault.
* `Store.run_absorb_fault` — without a shared label there can be one.
-/

namespace PatternAutomata

namespace Nfa

variable {n m : Nfa} {s t x y : Nat} {a : Symbol} {c : Char} {w : List Char}

-- ---------------------------------------------------------------------------
-- Paths
-- ---------------------------------------------------------------------------

section Merge

variable {h : n.labels.firstShared? m.labels = none}

/-- From a state of the first half, edges are those of `n`: whatever comes from `m` starts
at a raised number, which is none of `n`'s. -/
theorem edge_merge_left (hn : n.Valid) (hs : s < n.stateCount) :
    (n.merge m h).Edge s a t ↔ n.Edge s a t := by
  rw [edge_merge hn]
  refine or_iff_left ?_
  intro ⟨s', t', _, hs', _⟩
  omega

/-- From a state of the second half, edges are those of `m` with both ends raised. None of
them leads into the first half. -/
theorem edge_merge_right (hn : n.Valid) :
    (n.merge m h).Edge (s + n.stateCount) a y ↔ ∃ t, y = t + n.stateCount ∧ m.Edge s a t := by
  rw [edge_merge hn]
  constructor
  · intro he
    rcases he with he | ⟨s', t, he, hs, ht⟩
    · -- edges of `n` start at states of `n`
      exact absurd (hn.source_lt he) (by omega)
    · obtain rfl : s = s' := by omega
      exact ⟨t, ht, he⟩
  · intro ⟨t, ht, he⟩
    exact .inr ⟨s, t, he, rfl, ht⟩

/-- A path from a state of the first half is a path there. Each edge stays in the half
that it starts in, and so the next one starts there too. -/
theorem path_merge_left (hn : n.Valid) (hs : s < n.stateCount) :
    (n.merge m h).Path s w t ↔ n.Path s w t := by
  constructor
  · intro hp
    induction hp with
    | refl s => exact .refl s
    | step he _ ih =>
      have he := (edge_merge_left hn hs).mp (mem_transitions_iff.mp he)
      exact .cons he (ih (hn.edge_lt _ _ _ he))
  · exact Path.mono fun _ _ _ he => (edge_merge hn).mpr (.inl he)

/-- A path from a state of the second half is a path there, raised. It never comes into
the first half, since no edge leads there. -/
theorem path_merge_right (hn : n.Valid) :
    (n.merge m h).Path (s + n.stateCount) w y ↔ ∃ t, y = t + n.stateCount ∧ m.Path s w t := by
  constructor
  · intro hp
    -- the induction is on a path from any state, so the raised number is one that is
    -- remembered
    generalize hx : s + n.stateCount = x at hp
    induction hp generalizing s with
    | refl x => exact ⟨s, hx.symm, .refl s⟩
    | step he _ ih =>
      subst hx
      obtain ⟨z, rfl, hedge⟩ := (edge_merge_right hn).mp (mem_transitions_iff.mp he)
      obtain ⟨t, ht, hp⟩ := ih rfl
      exact ⟨t, ht, .cons hedge hp⟩
  · intro ⟨t, ht, hp⟩
    subst ht
    exact hp.map (f := (· + n.stateCount)) fun s a t he =>
      (edge_merge_right hn).mpr ⟨t, rfl, he⟩

end Merge

-- ---------------------------------------------------------------------------
-- Searches
-- ---------------------------------------------------------------------------

/-- The states that a word leads to from `set`, with all `ε`-moves before and after. -/
def reachedBy (n : Nfa) (w : List Char) (set : SortedSet Nat) : Except Fault (SortedSet Nat) := do
  w.foldlM n.step (← n.epsilonClosure set)

/-- From states of `n`, `both` finds what `first` finds; from raised states of `m`, what
`second` finds, raised; and from states of the one and the other, all of that. The
searches are compared as they run, with their faults, and none of them fails on states
that exist. -/
structure SideBySide (n m : Nfa)
    (first second both : SortedSet Nat → Except Fault (SortedSet Nat)) : Prop where
  left : ∀ S, n.Holds S → ∃ S', n.Holds S' ∧ first S = .ok S' ∧ both S = .ok S'
  right : ∀ T, m.Holds T → ∃ T', m.Holds T' ∧ second T = .ok T' ∧
    both (T.shift n.stateCount) = .ok (T'.shift n.stateCount)
  union : ∀ S T, n.Holds S → m.Holds T → ∃ S' T', first S = .ok S' ∧ second T = .ok T' ∧
    both (S ∪ T.shift n.stateCount) = .ok (S' ∪ T'.shift n.stateCount)

/-- A search that answers, for states that exist, the states that `R` leads to. A closure,
a step and the reading of a word are such searches, so what is said of mergers is proved
once for all three. -/
structure Finds (n : Nfa) (search : SortedSet Nat → Except Fault (SortedSet Nat))
    (found : SortedSet Nat → SortedSet Nat) (R : Nat → Nat → Prop) : Prop where
  search_eq : ∀ set, n.Holds set → search set = .ok (found set)
  mem_found : ∀ set t, t ∈ found set ↔ ∃ s ∈ set, R s t
  target_lt : ∀ s t, R s t → s < n.stateCount → t < n.stateCount

theorem finds_epsilonClosure (hn : n.Valid) :
    n.Finds n.epsilonClosure n.closure fun s t => n.Path s [] t where
  search_eq _ hset := epsilonClosure_eq hn hset
  mem_found _ _ := mem_closure
  target_lt _ _ hp hs := hn.path_lt hp hs

/-- A step finds what an edge on `c` leads to, and then a path without letters. -/
theorem finds_step (hn : n.Valid) (c : Char) :
    n.Finds (n.step · c) (n.after · c) fun s t => ∃ x, n.Edge s (.char c) x ∧ n.Path x [] t where
  search_eq _ hset := step_eq hn hset c
  mem_found _ _ := mem_after
  target_lt s t hst _ := by
    obtain ⟨x, he, hp⟩ := hst
    exact hn.path_lt hp (hn.edge_lt s (.char c) x he)

/-- Reading a word finds what paths labelled with it lead to. The closure before the first
letter is already a part of the path. -/
theorem finds_reachedBy (hn : n.Valid) (w : List Char) :
    n.Finds (n.reachedBy w) (fun set => n.afterWord (n.closure set) w) fun s t => n.Path s w t where
  search_eq set hset := by
    have hclosure : n.Holds (n.closure set) := fun _ ht => closure_lt hn hset ht
    rw [reachedBy, epsilonClosure_eq hn hset, ok_bind, foldlM_step_eq hn hclosure]
  mem_found set t := by
    rw [mem_afterWord closed_closure]
    constructor
    · intro ⟨x, hx, hp⟩
      obtain ⟨s, hs, hsx⟩ := mem_closure.mp hx
      exact ⟨s, hs, hsx.trans hp⟩
    · intro ⟨s, hs, hp⟩
      exact ⟨s, mem_closure.mpr ⟨s, hs, .refl s⟩, hp⟩
  target_lt _ _ hp hs := hn.path_lt hp hs

section Finds

variable {search : SortedSet Nat → Except Fault (SortedSet Nat)}
  {found : SortedSet Nat → SortedSet Nat} {R : Nat → Nat → Prop} {S T : SortedSet Nat}

theorem Finds.holds (hfinds : n.Finds search found R) (hS : n.Holds S) : n.Holds (found S) := by
  intro t ht
  obtain ⟨s, hs, hst⟩ := (hfinds.mem_found S t).mp ht
  exact hfinds.target_lt s t hst (hS s hs)

/-- A search from two sets finds what two searches find, as a member is found from one
state alone. -/
theorem Finds.found_union (hfinds : n.Finds search found R) :
    found (S ∪ T) = found S ∪ found T := by
  refine SortedSet.ext fun t => ?_
  simp only [hfinds.mem_found, SortedSet.mem_union, or_and_right, exists_or]

theorem Holds.union (hS : n.Holds S) (hT : n.Holds T) : n.Holds (S ∪ T) := by
  intro x hx
  exact (SortedSet.mem_union.mp hx).elim (hS x) (hT x)

end Finds

section Merge

variable {h : n.labels.firstShared? m.labels = none} {S T : SortedSet Nat}

theorem Holds.merge_left (hS : n.Holds S) : (n.merge m h).Holds S := by
  intro s hs
  rw [stateCount_merge]
  exact Nat.lt_add_right _ (hS s hs)

/-- The states of `m`, raised, are states of the merged automaton; those of `n` keep their
numbers. -/
theorem Holds.merge_right (hT : m.Holds T) : (n.merge m h).Holds (T.shift n.stateCount) := by
  intro x hx
  obtain ⟨t, ht, rfl⟩ := SortedSet.mem_shift.mp hx
  have hlt := hT t ht
  rw [stateCount_merge]
  omega

variable {first second both : SortedSet Nat → Except Fault (SortedSet Nat)}
  {foundFirst foundSecond foundBoth : SortedSet Nat → SortedSet Nat} {P Q R : Nat → Nat → Prop}

/-- What leads on in the first half as in `n` is found there as in `n`. -/
theorem Finds.found_left (hfirst : n.Finds first foundFirst P)
    (hboth : (n.merge m h).Finds both foundBoth R)
    (hleft : ∀ s < n.stateCount, ∀ y, R s y ↔ P s y) (hS : n.Holds S) :
    foundBoth S = foundFirst S := by
  refine SortedSet.ext fun y => ?_
  rw [hboth.mem_found, hfirst.mem_found]
  exact exists_congr fun s => and_congr_right fun hs => hleft s (hS s hs) y

/-- What leads on in the second half as in `m`, raised, is found there so. The two
functions may find closures, steps or whole words; only what they find is asked of them. -/
theorem Finds.found_right (hsecond : m.Finds second foundSecond Q)
    (hboth : (n.merge m h).Finds both foundBoth R)
    (hright : ∀ s y, R (s + n.stateCount) y ↔ ∃ t, y = t + n.stateCount ∧ Q s t) :
    foundBoth (T.shift n.stateCount) = (foundSecond T).shift n.stateCount := by
  refine SortedSet.ext fun y => ?_
  rw [hboth.mem_found, SortedSet.mem_shift]
  constructor
  · intro ⟨x, hx, hxy⟩
    obtain ⟨s, hs, rfl⟩ := SortedSet.mem_shift.mp hx
    -- the target is raised too, so it can be told which state of `m` it was
    obtain ⟨t, rfl, hst⟩ := (hright s y).mp hxy
    exact ⟨t, (hsecond.mem_found T t).mpr ⟨s, hs, hst⟩, rfl⟩
  · intro ⟨t, ht, hy⟩
    obtain ⟨s, hs, hst⟩ := (hsecond.mem_found T t).mp ht
    exact ⟨s + n.stateCount, SortedSet.mem_shift.mpr ⟨s, hs, rfl⟩,
      (hright s y).mpr ⟨t, hy.symm, hst⟩⟩

/-- Searches lie side by side if what leads them on keeps to the halves. This is the form
in which the three searches are settled: only their relations have to be compared. -/
theorem sideBySide_of_iff (hfirst : n.Finds first foundFirst P)
    (hsecond : m.Finds second foundSecond Q) (hboth : (n.merge m h).Finds both foundBoth R)
    (hleft : ∀ s < n.stateCount, ∀ y, R s y ↔ P s y)
    (hright : ∀ s y, R (s + n.stateCount) y ↔ ∃ t, y = t + n.stateCount ∧ Q s t) :
    SideBySide n m first second both where
  left S hS := by
    refine ⟨_, hfirst.holds hS, hfirst.search_eq S hS, ?_⟩
    rw [hboth.search_eq S hS.merge_left, hfirst.found_left hboth hleft hS]
  right T hT := by
    refine ⟨_, hsecond.holds hT, hsecond.search_eq T hT, ?_⟩
    rw [hboth.search_eq _ hT.merge_right, hsecond.found_right hboth hright]
  union S T hS hT := by
    refine ⟨_, _, hfirst.search_eq S hS, hsecond.search_eq T hT, ?_⟩
    rw [hboth.search_eq _ (hS.merge_left.union hT.merge_right), hboth.found_union,
      hfirst.found_left hboth hleft hS, hsecond.found_right hboth hright]

/-- The automaton has the states of two others side by side, and the start and the final
states of the first. So it accepts what the first one accepts: the states of the other are
there, but nothing leads to them yet. -/
structure IsDisjointUnion (n m merged : Nfa) : Prop where
  epsilonClosure : SideBySide n m n.epsilonClosure m.epsilonClosure merged.epsilonClosure
  step : ∀ c, SideBySide n m (n.step · c) (m.step · c) (merged.step · c)
  reachedBy : ∀ w, SideBySide n m (n.reachedBy w) (m.reachedBy w) (merged.reachedBy w)
  start : merged.start = n.start
  finals : merged.finals = n.finals
  accepts : ∀ word, merged.accepts word = n.accepts word
  labels : merged.labels.toList = n.labels.toList ++ m.labels.toList
  alphabet : merged.alphabet = n.alphabet ∪ m.alphabet
  ties : merged.ties = n.ties ++ m.ties.map (raiseTie n.stateCount)

/-- As the start is in the first half, so are all accepting paths. The second half is
there, but cannot be reached until something leads into it. -/
theorem accepts_merge (hn : n.Valid) (hm : m.Valid) (word : String) :
    (n.merge m h).accepts word = n.accepts word := by
  obtain ⟨b, hb, hiff⟩ := accepts_eq_ok hn word
  obtain ⟨b', hb', hiff'⟩ := accepts_eq_ok (hn.merge hm (h := h)) word
  have hsame : (n.merge m h).Accepting word.toList ↔ n.Accepting word.toList := by
    refine exists_congr fun s => and_congr_right fun hs => ?_
    have hlt := hn.start_lt s hs
    exact exists_congr fun t => and_congr_right fun _ => path_merge_left hn hlt
  rw [hb, hb', Bool.eq_iff_iff.mpr (hiff'.trans (hsame.trans hiff.symm))]

/-- The merged automaton is the disjoint union. All three ways to go on from a set of
states are taken apart into the halves by the same argument. -/
theorem isDisjointUnion_merge (hn : n.Valid) (hm : m.Valid) :
    IsDisjointUnion n m (n.merge m h) where
  epsilonClosure := sideBySide_of_iff (finds_epsilonClosure hn) (finds_epsilonClosure hm)
    (finds_epsilonClosure (hn.merge hm)) (fun _ hs _ => path_merge_left hn hs)
    fun _ _ => path_merge_right hn
  -- a step is an edge and a path, so the two lemmas on halves are used in turn
  step c := by
    refine sideBySide_of_iff (finds_step hn c) (finds_step hm c) (finds_step (hn.merge hm) c)
      (fun s hs y => exists_congr fun x => ?_) fun s y => ?_
    · rw [edge_merge_left hn hs]
      exact and_congr_right fun he => path_merge_left hn (hn.edge_lt _ _ _ he)
    · constructor
      · intro ⟨x, he, hp⟩
        obtain ⟨z, rfl, hedge⟩ := (edge_merge_right hn).mp he
        obtain ⟨t, ht, hpath⟩ := (path_merge_right hn).mp hp
        exact ⟨t, ht, z, hedge, hpath⟩
      · intro ⟨t, ht, z, he, hp⟩
        exact ⟨z + n.stateCount, (edge_merge_right hn).mpr ⟨z, rfl, he⟩,
          (path_merge_right hn).mpr ⟨t, ht, hp⟩⟩
  reachedBy w := sideBySide_of_iff (finds_reachedBy hn w) (finds_reachedBy hm w)
    (finds_reachedBy (hn.merge hm) w) (fun _ hs _ => path_merge_left hn hs)
    fun _ _ => path_merge_right hn
  start := rfl
  finals := rfl
  accepts := accepts_merge hn hm
  labels := toList_labels_merge
  alphabet := rfl
  ties := rfl

end Merge

-- ---------------------------------------------------------------------------
-- When automata are merged
-- ---------------------------------------------------------------------------

/-- A state of either automaton has the same label as one of the other. -/
def SharesLabel (n m : Nfa) : Prop :=
  ∃ s t label, n.label s = .ok label ∧ m.label t = .ok label

/-- The test before a merger goes through the labels of one automaton and looks them up in
the other. It finds nothing exactly if no label is shared. -/
theorem firstShared?_eq_none_iff_not_sharesLabel :
    n.labels.firstShared? m.labels = none ↔ ¬ SharesLabel n m := by
  -- a label is in the list if a state has it
  have hlabel : ∀ (table : StateTable) (label : String),
      (∃ s, table.label s = .ok label) ↔ label ∈ table.labels.toList := by
    intro table label
    rw [List.mem_iff_getElem?]
    exact exists_congr fun s => by rw [StateTable.label_eq_ok_iff, Labels.getElem?_toList]
  rw [Labels.firstShared?_eq_none_iff]
  constructor
  · intro hnone ⟨s, t, label, hs, ht⟩
    exact hnone label ((hlabel _ _).mp ⟨t, ht⟩) ((hlabel _ _).mp ⟨s, hs⟩)
  · intro hshares label hm hn
    obtain ⟨s, hs⟩ := (hlabel _ _).mpr hn
    obtain ⟨t, ht⟩ := (hlabel _ _).mpr hm
    exact hshares ⟨s, t, label, hs, ht⟩

/-- A merger is refused exactly if a label is shared or a tie cannot be raised. Labels are
compared first, but which of the two faults it is does not matter here. -/
theorem exists_absorb_eq_error_iff :
    (∃ fault, n.absorb m = .error fault) ↔ SharesLabel n m ∨ ¬ TiesFit n.stateCount m := by
  constructor
  · intro ⟨fault, hfault⟩
    by_cases hshares : SharesLabel n m
    · exact .inl hshares
    · refine .inr fun hties => ?_
      rw [absorb_eq_ok (firstShared?_eq_none_iff_not_sharesLabel.mpr hshares) hties] at hfault
      exact nomatch hfault
  · intro hrefused
    -- labels come first, so a tie is looked at only if none is shared
    by_cases hshares : SharesLabel n m
    · have hsome : n.labels.firstShared? m.labels ≠ none := fun hnone =>
        firstShared?_eq_none_iff_not_sharesLabel.mp hnone hshares
      obtain ⟨label, hlabel⟩ := Option.ne_none_iff_exists'.mp hsome
      exact ⟨_, absorb_eq_error_of_shared hlabel⟩
    · have hties := hrefused.resolve_left hshares
      exact ⟨_, absorb_eq_error (firstShared?_eq_none_iff_not_sharesLabel.mpr hshares) hties⟩

end Nfa

namespace Store

open Nfa

/-- **Merging is a disjoint union**: of any two automata that operations make, the one
absorbs the other unless they share a label or a tie cannot be raised, and in the result
the two stand side by side. -/
theorem run_absorb {operations operations' : List Operation} {store store' : Store}
    (h : ({} : Store).run operations = .ok store)
    (h' : ({} : Store).run operations' = .ok store') :
    ∀ n ∈ store.nfas, ∀ m ∈ store'.nfas,
      ((∃ fault, n.absorb m = .error fault) ↔ SharesLabel n m ∨ ¬ TiesFit n.stateCount m) ∧
      ∀ merged offset, n.absorb m = .ok (merged, offset) →
        offset = n.stateCount ∧ IsDisjointUnion n m merged := by
  intro n hn m hm
  refine ⟨exists_absorb_eq_error_iff, fun merged offset habsorb => ?_⟩
  obtain ⟨_, _, rfl, rfl⟩ := absorb_eq_ok_iff.mp habsorb
  exact ⟨rfl, isDisjointUnion_merge ((valid_empty.run h).nfas n hn)
    ((valid_empty.run h').nfas m hm)⟩

/-- The first automaton has an `ε`-move to its final state, the second one a letter and a
tie, so states, transitions and ties are all raised. -/
theorem run_absorb_of_two_arrows :
    ∃ store n m merged, ({} : Store).run [.newNfa, .editNfa 0 (.addState "p"),
        .editNfa 0 (.addState "q"), .editNfa 0 (.setStart 0), .editNfa 0 (.addFinal 1),
        .editNfa 0 (.addTransition 0 .epsilon 1), .newNfa, .editNfa 1 (.addState "r"),
        .editNfa 1 (.addState "s"), .editNfa 1 (.addTransition 0 (.char 'a') 1),
        .recordTie 1 ⟨0, 1, .left⟩] = .ok store ∧
      n ∈ store.nfas ∧ m ∈ store.nfas ∧ n.absorb m = .ok (merged, 2) ∧
      merged.transitions = [(0, .epsilon, 1), (2, .char 'a', 3)] ∧ IsDisjointUnion n m merged := by
  have hrun : (do
      let store ← ({} : Store).run [.newNfa, .editNfa 0 (.addState "p"),
        .editNfa 0 (.addState "q"), .editNfa 0 (.setStart 0), .editNfa 0 (.addFinal 1),
        .editNfa 0 (.addTransition 0 .epsilon 1), .newNfa, .editNfa 1 (.addState "r"),
        .editNfa 1 (.addState "s"), .editNfa 1 (.addTransition 0 (.char 'a') 1),
        .recordTie 1 ⟨0, 1, .left⟩]
      let n ← store.nfa 0
      let m ← store.nfa 1
      let absorbed ← n.absorb m
      return (absorbed.2, absorbed.1.transitions)).toOption =
        some (2, [(0, .epsilon, 1), (2, .char 'a', 3)]) := by decide +kernel
  -- the run is computed, and then taken apart into its steps
  obtain ⟨store, hstore, hrun⟩ := bind_eq_ok.mp (eq_ok_of_toOption hrun)
  obtain ⟨n, hn, hrun⟩ := bind_eq_ok.mp hrun
  obtain ⟨m, hm, hrun⟩ := bind_eq_ok.mp hrun
  obtain ⟨⟨merged, offset⟩, habsorb, hrun⟩ := bind_eq_ok.mp hrun
  obtain ⟨rfl, htransitions⟩ := Prod.mk.inj (Except.ok.inj hrun)
  have hn' := mem_of_nfa_eq_ok hn
  have hm' := mem_of_nfa_eq_ok hm
  obtain ⟨-, hmerged⟩ := run_absorb hstore hstore n hn' m hm'
  exact ⟨store, n, m, merged, hstore, hn', hm', habsorb, htransitions,
    (hmerged merged _ habsorb).2⟩

/-- A tie is recorded from the largest word, which the one state before it is to raise. No
label is shared, so it is the sum that is refused. -/
theorem run_absorb_fault :
    ∃ store n m, ({} : Store).run [.newNfa, .editNfa 0 (.addState "p"), .newNfa,
        .editNfa 1 (.addState "r"), .recordTie 1 ⟨maxWord, 0, .left⟩] = .ok store ∧
      store.nfas.toList = [n, m] ∧ ¬ SharesLabel n m ∧ n.absorb m = .error .sumTooLarge := by
  have hrun : (({} : Store).run [.newNfa, .editNfa 0 (.addState "p"), .newNfa,
      .editNfa 1 (.addState "r"), .recordTie 1 ⟨maxWord, 0, .left⟩]).toOption.map
        (fun store => store.nfas.toList.map fun n => (n.labels.toList, n.ties.toList)) =
      some [(["p"], []), (["r"], [⟨maxWord, 0, .left⟩])] := by decide +kernel
  obtain ⟨store, hstore, hnfas⟩ := Option.map_eq_some_iff.mp hrun
  obtain ⟨n, rest, hlist, hn, hrest⟩ := List.map_eq_cons_iff.mp hnfas
  obtain ⟨m, none, rfl, hm, hnone⟩ := List.map_eq_cons_iff.mp hrest
  obtain rfl := List.map_eq_nil_iff.mp hnone
  obtain ⟨hlabels, -⟩ := Prod.mk.inj hn
  obtain ⟨hlabels', hties⟩ := Prod.mk.inj hm
  have hcount : n.stateCount = 1 := StateTable.stateCount_eq hlabels
  have hcount' : m.stateCount = 1 := StateTable.stateCount_eq hlabels'
  have hshared : n.labels.firstShared? m.labels = none := by
    rw [Labels.firstShared?_eq_none_iff, hlabels, hlabels']
    decide
  have hfit : ¬ TiesFit n.stateCount m := by
    intro hfit
    -- the sources of the tie and the one state before it are more than a word holds
    have htie : (⟨maxWord, 0, .left⟩ : Tie) ∈ m.ties := by
      rw [← Array.mem_toList_iff, hties]
      exact List.mem_singleton.mpr rfl
    obtain ⟨hsource, -⟩ := hfit _ htie
    rw [hcount, hcount'] at hsource
    exact absurd hsource (by unfold Raisable; decide)
  exact ⟨store, n, m, eq_ok_of_toOption hstore, hlist,
    firstShared?_eq_none_iff_not_sharesLabel.mp hshared, absorb_eq_error hshared hfit⟩

end Store

end PatternAutomata
