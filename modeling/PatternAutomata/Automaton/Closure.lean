import PatternAutomata.Automaton.Simulation

/-!
# Pattern automata — closures with a stack

A set of states is closed under `ε` with a stack. All that was found is in one
set, and those of its members whose transitions are still to be looked at are on
the stack, where the one that was found last is looked at first. Each of them is
looked up in the rows, so a state that does not exist ends the search with a fault.

A state goes on the stack when it is found, and a state is found once. So the
search ends on any transitions, cycles among them: what waits and what is still to
be found get fewer with every state that is looked at.
-/

namespace PatternAutomata

/-- A closure on its way: the states that were found, and those of them that wait. -/
structure ClosureSearch where
  found : SortedSet Nat
  stack : List Nat

namespace ClosureSearch

/-- A state that was not found before waits on top of the others. -/
def meet (search : ClosureSearch) (t : Nat) : ClosureSearch :=
  if t ∈ search.found then search
  else { found := search.found.insert t, stack := t :: search.stack }

/-- Finds the targets of a state in turn; the last new one is on top afterwards. -/
def meetAll (search : ClosureSearch) (targets : List Nat) : ClosureSearch :=
  targets.foldl meet search

/-- How many states are looked at at most, if those that are found lie in `range`. -/
def weight (range : List Nat) (search : ClosureSearch) : Nat :=
  (range.filter (· ∉ search.found)).length + search.stack.length

variable {search : ClosureSearch} {range targets : List Nat} {t : Nat}

/-- A state that waits was one to be found. -/
theorem weight_meet_le (ht : t ∈ range) : (search.meet t).weight range ≤ search.weight range := by
  unfold meet
  split
  · exact Nat.le_refl _
  · rename_i hnew
    have hsplit : range.filter (· ∉ search.found.insert t) =
        (range.filter (· ∉ search.found)).filter (· ≠ t) := by
      rw [List.filter_filter]
      refine List.filter_congr fun x _ => ?_
      simp
    have hlt : (range.filter (· ∉ search.found.insert t)).length <
        (range.filter (· ∉ search.found)).length := by
      rw [hsplit]
      refine List.length_filter_lt_length_iff_exists.mpr ⟨t, ?_, by simp⟩
      exact List.mem_filter.mpr ⟨ht, decide_eq_true hnew⟩
    simp only [weight, List.length_cons]
    omega

theorem weight_meetAll_le (h : ∀ t ∈ targets, t ∈ range) :
    (search.meetAll targets).weight range ≤ search.weight range := by
  induction targets generalizing search with
  | nil => exact Nat.le_refl _
  | cons t targets ih =>
    obtain ⟨ht, htargets⟩ := List.forall_mem_cons.mp h
    exact Nat.le_trans (ih htargets) (weight_meet_le ht)

end ClosureSearch

namespace Nfa

/-- Looks at the states that wait, one after the other. The search ends since each turn
takes a state from the stack, and what goes onto it is not to be found any more. -/
def closeStack (n : Nfa) (search : ClosureSearch) : Except Fault (SortedSet Nat) :=
  match search with
  | ⟨found, []⟩ => .ok found
  | ⟨found, s :: stack⟩ =>
    match _hrow : n.rows[s]? with
    | none => .error .outOfRange
    | some row =>
      n.closeStack (ClosureSearch.meetAll ⟨found, stack⟩ (rowTargets row .epsilon).toList)
termination_by search.weight n.allTargets
decreasing_by
  have htargets : ∀ t ∈ (rowTargets row .epsilon).toList, t ∈ n.allTargets := by
    intro t ht
    refine mem_allTargets_of_mem_successors (a := .epsilon) (s := s) ?_
    rwa [successors, Array.getD_eq_getD_getElem?, _hrow]
  refine Nat.lt_of_le_of_lt (ClosureSearch.weight_meetAll_le htargets) ?_
  exact Nat.add_lt_add_left (Nat.lt_succ_self _) _

/-- The states that can be reached without reading anything, found with a stack. The members of
the set wait in order, so the last of them is looked at first. -/
def closeWithStack (n : Nfa) (set : SortedSet Nat) : Except Fault (SortedSet Nat) :=
  n.closeStack { found := set, stack := set.toList.reverse }

end Nfa

end PatternAutomata
