import Mathlib.Logic.Relation
import PatternAutomata.Automaton.Closure
import PatternAutomata.Proofs.Automaton.Store

/-!
# Pattern automata — exact simulation

A closure that is found with a stack is the closure, on any automaton and for any
set, faults included. What carries the proof is an invariant of the search: all
that was found is reached from the set, and a state that was found and does not
wait any more has all its successors among what was found.

On automata that operations build, the sets that a simulation holds are then
described by the listed transitions alone, and so are the words that are accepted.

## Results

* `closeWithStack_eq`  — the search with a stack finds the closure, or fails with it.
* `Store.run_isExact`  — after any run of operations, all that a simulation answers is exact.
-/

namespace PatternAutomata

-- ---------------------------------------------------------------------------
-- One search
-- ---------------------------------------------------------------------------

namespace ClosureSearch

variable {search : ClosureSearch} {targets : List Nat} {s t : Nat}

/-- What is met is found, whether or not it was found before. -/
theorem mem_found_meet : s ∈ (search.meet t).found ↔ s ∈ search.found ∨ s = t := by
  unfold meet
  split
  · rename_i ht
    exact ⟨.inl, fun h => h.elim id fun hs => hs ▸ ht⟩
  · exact SortedSet.mem_insert.trans or_comm

/-- What is found afterwards is what was found before, and all targets. -/
theorem mem_found_meetAll :
    s ∈ (search.meetAll targets).found ↔ s ∈ search.found ∨ s ∈ targets := by
  induction targets generalizing search with
  | nil => simp [meetAll]
  | cons t targets ih =>
    show s ∈ ((search.meet t).meetAll targets).found ↔ _
    rw [ih, mem_found_meet, List.mem_cons, or_assoc]

/-- What waits is what waited, and what was not found before. So nothing waits twice. -/
theorem mem_stack_meet :
    s ∈ (search.meet t).stack ↔ s ∈ search.stack ∨ s = t ∧ s ∉ search.found := by
  unfold meet
  split
  · rename_i ht
    exact ⟨.inl, fun h => h.elim id fun hs => absurd (hs.1 ▸ ht) hs.2⟩
  · rename_i ht
    rw [List.mem_cons, or_comm]
    exact or_congr_right ⟨fun hs => ⟨hs, hs ▸ ht⟩, fun hs => hs.1⟩

/-- Whatever is found for the first time waits, and nothing else is put on the stack. A
target that is listed twice waits once only, as it was found when it is met again. -/
theorem mem_stack_meetAll :
    s ∈ (search.meetAll targets).stack ↔ s ∈ search.stack ∨ s ∈ targets ∧ s ∉ search.found := by
  induction targets generalizing search with
  | nil => simp [meetAll]
  | cons t targets ih =>
    show s ∈ ((search.meet t).meetAll targets).stack ↔ _
    rw [ih, mem_stack_meet, mem_found_meet, List.mem_cons]
    by_cases hs : s = t
    · simp [hs]
    · simp [hs]

end ClosureSearch

namespace Nfa

variable {n : Nfa} {set : SortedSet Nat} {search : ClosureSearch} {s t : Nat}

/-- What holds of a search on its way. All that was found is reached from the set, so
nothing too much is found. A state that was found and does not wait was looked at, so it
has a row and where `ε` leads from it was found: once nothing waits, nothing is missing. -/
structure Searching (n : Nfa) (set : SortedSet Nat) (search : ClosureSearch) : Prop where
  start_found : ∀ s ∈ set, s ∈ search.found
  reached : ∀ t ∈ search.found, ∃ s ∈ set, n.Path s [] t
  stack_found : ∀ s ∈ search.stack, s ∈ search.found
  looked_at : ∀ s ∈ search.found, s ∉ search.stack →
    s < n.rows.size ∧ ∀ t, n.Edge s .epsilon t → t ∈ search.found

/-- At the start the whole set was found and waits, so nothing was looked at yet. -/
theorem searching_start :
    n.Searching set { found := set, stack := set.toList.reverse } where
  start_found _ hs := hs
  reached t ht := ⟨t, ht, .refl t⟩
  stack_found _ hs := List.mem_reverse.mp hs
  looked_at _ hs hwaits := absurd (List.mem_reverse.mpr hs) hwaits

/-- One step: the state that waits on top is looked at, its successors are found, and
those that are new wait. -/
theorem Searching.look {found : SortedSet Nat} {stack : List Nat}
    {row : SortedMap Symbol (SortedSet Nat)} (h : n.Searching set ⟨found, s :: stack⟩)
    (hrow : n.rows[s]? = some row) :
    n.Searching set (ClosureSearch.meetAll ⟨found, stack⟩ (rowTargets row .epsilon).toList) := by
  have hs : s ∈ found := h.stack_found s List.mem_cons_self
  have hedge : ∀ t, n.Edge s .epsilon t ↔ t ∈ (rowTargets row .epsilon).toList := by
    intro t
    rw [edge_iff, Array.getD_eq_getD_getElem?, hrow]
    rfl
  refine {
    start_found := fun x hx => ClosureSearch.mem_found_meetAll.mpr (.inl (h.start_found x hx))
    reached := fun t ht => ?_
    stack_found := fun x hx => ?_
    looked_at := fun x hx hwaits => ?_ }
  · rcases ClosureSearch.mem_found_meetAll.mp ht with ht | ht
    · exact h.reached t ht
    · -- one `ε` more on the way to `s`, which was found before
      obtain ⟨x, hx, hp⟩ := h.reached s hs
      exact ⟨x, hx, hp.trans (.epsilon ((hedge t).mpr ht))⟩
  · rw [ClosureSearch.mem_stack_meetAll] at hx
    rw [ClosureSearch.mem_found_meetAll]
    exact hx.imp (fun hx => h.stack_found x (List.mem_cons_of_mem s hx)) fun hx => hx.1
  · rw [ClosureSearch.mem_stack_meetAll, not_or] at hwaits
    -- what was found just now waits, so `x` was found before
    have hfound : x ∈ found := by
      refine Classical.byContradiction fun hnew => ?_
      rcases ClosureSearch.mem_found_meetAll.mp hx with hx | hx
      · exact hnew hx
      · exact hwaits.2 ⟨hx, hnew⟩
    by_cases hxs : x = s
    · subst hxs
      obtain ⟨hlt, -⟩ := Array.getElem?_eq_some_iff.mp hrow
      exact ⟨hlt, fun t ht => ClosureSearch.mem_found_meetAll.mpr (.inr ((hedge t).mp ht))⟩
    · have hstack : x ∉ s :: stack := by
        rw [List.mem_cons, not_or]
        exact ⟨hxs, hwaits.1⟩
      obtain ⟨hlt, hnext⟩ := h.looked_at x hfound hstack
      exact ⟨hlt, fun t ht => ClosureSearch.mem_found_meetAll.mpr (.inl (hnext t ht))⟩

/-- Once nothing waits, the closure was found: it holds the set and is closed under `ε`,
and all its members are reached. As all of them were looked at, they all exist. -/
theorem Searching.epsilonClosure_eq {found : SortedSet Nat} (h : n.Searching set ⟨found, []⟩) :
    n.epsilonClosure set = .ok found := by
  have hnext : ∀ s ∈ found, ∀ t, n.Edge s .epsilon t → t ∈ found := fun s hs =>
    (h.looked_at s hs List.not_mem_nil).2
  have hclosure : n.closure set = found := by
    refine SortedSet.ext fun t => ?_
    rw [mem_closure]
    refine ⟨fun ht => ?_, h.reached t⟩
    obtain ⟨s, hs, hp⟩ := ht
    rw [path_nil_iff_reaches] at hp
    -- along the path: what is found leads to what is found
    induction hp with
    | refl => exact h.start_found s hs
    | step _ ht ih => exact hnext _ ih _ ht
  have hrange : n.inRange found = true := by
    refine List.all_eq_true.mpr fun s hs => decide_eq_true ?_
    exact (h.looked_at s hs List.not_mem_nil).1
  rw [epsilonClosure, hclosure]
  exact if_pos hrange

/-- A state without a row is a member of the closure as well, so that both searches fail.
The one fails when it takes the state from the stack, the other when it is checked at the
end. -/
theorem Searching.epsilonClosure_eq_error (h : n.Searching set search)
    (hs : s ∈ search.stack) (hrow : n.rows[s]? = none) :
    n.epsilonClosure set = .error .outOfRange := by
  have hmem : s ∈ n.closure set := mem_closure.mpr (h.reached s (h.stack_found s hs))
  have hrange : ¬ n.inRange (n.closure set) = true := by
    intro hall
    have hlt : s < n.rows.size := of_decide_eq_true (List.all_eq_true.mp hall s hmem)
    exact absurd (Array.getElem?_eq_none_iff.mp hrow) (Nat.not_le.mpr hlt)
  exact if_neg hrange

/-- The recursion ends at an empty stack, at a state without a row, or looks at the state
on top. The invariant `Searching` settles the first two and is kept by the third. -/
theorem Searching.closeStack_eq (h : n.Searching set search) :
    n.closeStack search = n.epsilonClosure set := by
  fun_induction closeStack n search with
  | case1 found => exact h.epsilonClosure_eq.symm
  | case2 found s stack hrow => exact (h.epsilonClosure_eq_error List.mem_cons_self hrow).symm
  | case3 found s stack row hrow ih => exact ih (h.look hrow)

/-- The search with a stack finds the closure, or fails with it. -/
theorem closeWithStack_eq (n : Nfa) (set : SortedSet Nat) :
    n.closeWithStack set = n.epsilonClosure set :=
  searching_start.closeStack_eq

-- ---------------------------------------------------------------------------
-- What a simulation answers
-- ---------------------------------------------------------------------------

/-- Some number of listed `ε`-transitions leads from `s` to `t`. -/
def EpsilonReaches (n : Nfa) : Nat → Nat → Prop :=
  Relation.ReflTransGen fun x y => (x, .epsilon, y) ∈ n.transitions

/-- Paths by listed transitions are paths by edges, and the words of both are empty. -/
theorem epsilonReaches_iff : n.EpsilonReaches s t ↔ n.Path s [] t := by
  constructor
  · intro h
    induction h with
    | refl => exact .refl s
    | tail _ he ih => exact ih.trans (.epsilon (mem_transitions_iff.mp he))
  · intro h
    rw [path_nil_iff_reaches] at h
    induction h with
    | refl => exact .refl
    | step _ ht ih => exact .tail ih (mem_transitions_iff.mpr ht)

/-- What a simulation answers is what the listed transitions say, for each question that
it is asked: the closure, by both of its searches, one step, the states at the start, and
acceptance. All are about sets of states that exist. -/
structure IsExact (n : Nfa) : Prop where
  epsilonClosure : ∀ set, n.Holds set → ∃ closed,
    n.closeWithStack set = .ok closed ∧ n.epsilonClosure set = .ok closed ∧
      ∀ t, t ∈ closed ↔ ∃ s ∈ set, n.EpsilonReaches s t
  step : ∀ set c, n.Holds set → ∃ next, n.step set c = .ok next ∧
    ∀ t, t ∈ next ↔ ∃ s ∈ set, ∃ x, (s, .char c, x) ∈ n.transitions ∧ n.EpsilonReaches x t
  initialSet : ∃ first, n.initialSet = .ok first ∧
    ∀ t, t ∈ first ↔ ∃ s, n.start = some s ∧ n.EpsilonReaches s t
  accepts : ∀ word : String, ∃ b, n.accepts word = .ok b ∧ (b = true ↔ n.Accepting word.toList)
  /-- To stop at an empty set answers what going on to the end of the word does. -/
  accepts_eq_heldAfter : ∀ word : String, n.accepts word = do
    return (← n.heldAfter word.toList).toList.any n.isFinal
  /-- A transition on a character is no `ε`-transition, whatever the character is. -/
  epsilonClosure_addTransition : ∀ n' s c t, n.addTransition s (.char c) t = .ok n' →
    ∀ set, n'.epsilonClosure set = n.epsilonClosure set
  rejects : ∀ word : String, (∃ c ∈ word.toList, c ∉ n.alphabet) → n.accepts word = .ok false

/-- A path is labelled with letters of the alphabet only, since adding a transition has
noted its letter. So a word with any other letter is rejected. -/
theorem Path.letter_mem_alphabet {w : List Char} {c : Char} (hn : n.Valid) (hp : n.Path s w t)
    (hc : c ∈ w) : c ∈ n.alphabet := by
  induction hp with
  | refl => exact absurd hc List.not_mem_nil
  | @step s x t a w he _ ih =>
    rcases List.mem_append.mp hc with hc | hc
    · cases a with
      | epsilon => exact absurd hc List.not_mem_nil
      | char e =>
        rw [List.mem_singleton.mp hc]
        exact hn.edge_alphabet s e x (mem_transitions_iff.mp he)
    · exact ih hc

/-- A closure depends on the `ε`-transitions only, so a transition on a letter leaves
every closure as it was. -/
theorem epsilonClosure_addTransition_char {m : Nfa} {c : Char}
    (h : n.addTransition s (.char c) t = .ok m) (set : SortedSet Nat) :
    m.epsilonClosure set = n.epsilonClosure set := by
  obtain ⟨hs, -, rfl⟩ := addTransition_eq_ok_iff.mp h
  -- the successors by `ε` are the same, so the two sets are reached by one relation
  have hsuccessors : (n.extend [(s, .char c, t)] []).successors .epsilon =
      n.successors .epsilon := by
    funext x
    refine congrArg SortedSet.toList (SortedSet.ext fun y => ?_)
    refine (edge_extend (by simpa using hs)).trans (or_iff_left ?_)
    simp
  have hclosure : (n.extend [(s, .char c, t)] []).closure set = n.closure set := by
    refine SortedSet.ext fun y => ?_
    simp only [mem_closure, path_nil_iff_reaches, hsuccessors]
  unfold epsilonClosure inRange
  rw [hclosure, size_rows_extend]

/-- Of an automaton whose parts fit together all answers are exact. Each one is the
specification of its function, with edges read as listed transitions. -/
theorem Valid.isExact (hn : n.Valid) : n.IsExact where
  epsilonClosure set hset := by
    refine ⟨n.closure set, ?_, epsilonClosure_eq hn hset, fun t => ?_⟩
    · rw [closeWithStack_eq, epsilonClosure_eq hn hset]
    · simp only [mem_closure, epsilonReaches_iff]
  step set c hset := by
    refine ⟨n.after set c, step_eq hn hset c, fun t => ?_⟩
    simp only [mem_after, epsilonReaches_iff, mem_transitions_iff]
  initialSet := by
    refine ⟨n.initial, initialSet_eq hn, fun t => ?_⟩
    simp only [mem_initial, epsilonReaches_iff]
  accepts := accepts_eq_ok hn
  accepts_eq_heldAfter word := by
    rw [accepts_eq hn, heldAfter_eq hn]
    rfl
  epsilonClosure_addTransition _ _ _ _ h set := epsilonClosure_addTransition_char h set
  rejects word hletter := by
    obtain ⟨c, hc, hnot⟩ := hletter
    obtain ⟨b, hb, hiff⟩ := accepts_eq_ok hn word
    -- an accepting path would have the foreign letter on it
    have hfalse : ¬ n.Accepting word.toList := by
      intro ⟨s, _, t, _, hp⟩
      exact hnot (hp.letter_mem_alphabet hn hc)
    rw [hb, Bool.eq_false_iff.mpr fun htrue => hfalse (hiff.mp htrue)]

end Nfa

-- ---------------------------------------------------------------------------
-- After any run of operations
-- ---------------------------------------------------------------------------

namespace Store

variable {store : Store} {operations : List Operation}

/-- **Simulations are exact**: after any operations that succeed, in any order, a closure
holds just the states that `ε`-paths lead to, and a word is accepted just if a path reads
it. Only the validity of the automata is used, which every operation keeps. -/
theorem run_isExact (h : ({} : Store).run operations = .ok store) :
    ∀ n ∈ store.nfas, n.IsExact := by
  intro n hn
  exact ((valid_empty.run h).nfas n hn).isExact

/-- Two states lead to each other by `ε`, one of them also to itself, and the other to itself by
the character `ε`. -/
theorem run_isExact_of_cycles :
    ∃ store n, ({} : Store).run [.newNfa, .editNfa 0 (.addState "p"), .editNfa 0 (.addState "q"),
        .editNfa 0 (.setStart 0), .editNfa 0 (.addFinal 1),
        .editNfa 0 (.addTransition 0 .epsilon 1), .editNfa 0 (.addTransition 1 .epsilon 0),
        .editNfa 0 (.addTransition 0 .epsilon 0),
        .editNfa 0 (.addTransition 1 (.char 'ε') 1)] = .ok store ∧
      n ∈ store.nfas ∧ n.transitions = [(0, .epsilon, 0), (0, .epsilon, 1), (1, .epsilon, 0),
        (1, .char 'ε', 1)] ∧ n.IsExact := by
  -- the transitions are computed, and what they show is exact by the theorem
  have hrun : (({} : Store).run [.newNfa, .editNfa 0 (.addState "p"), .editNfa 0 (.addState "q"),
      .editNfa 0 (.setStart 0), .editNfa 0 (.addFinal 1),
      .editNfa 0 (.addTransition 0 .epsilon 1), .editNfa 0 (.addTransition 1 .epsilon 0),
      .editNfa 0 (.addTransition 0 .epsilon 0),
      .editNfa 0 (.addTransition 1 (.char 'ε') 1)]).toOption.map
        (fun store => store.nfas.toList.map Nfa.transitions) = some [[(0, .epsilon, 0),
          (0, .epsilon, 1), (1, .epsilon, 0), (1, .char 'ε', 1)]] := by decide +kernel
  obtain ⟨store, hstore, hnfas⟩ := Option.map_eq_some_iff.mp hrun
  obtain ⟨n, hn, htransitions⟩ := List.mem_map.mp (hnfas ▸ List.mem_cons_self)
  have hmem : n ∈ store.nfas := Array.mem_toList_iff.mp hn
  have hok := eq_ok_of_toOption hstore
  exact ⟨store, n, hok, hmem, htransitions, run_isExact hok n hmem⟩

end Store

end PatternAutomata
