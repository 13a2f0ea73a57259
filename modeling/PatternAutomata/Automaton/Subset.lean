import PatternAutomata.Automaton.OfElements
import PatternAutomata.Automaton.Simulation
import PatternAutomata.Event

/-!
# Pattern automata — determinization

The subset construction: a state of the deterministic automaton stands for the
set of states that the nondeterministic one can be in. Only sets that some word
leads to are made, and never the empty one.

## Results

* `exists_range_of_subset` — there are finitely many sets over a list of numbers.
* `finiteRange_nextSubsets` — so the search for subsets ends.
* `subsetVisits_eq`         — the transitions of a state are the moves of its set.
-/

namespace PatternAutomata

/-- There are finitely many sets over a list of numbers, by induction on the list: a set
holds the head, and then it is the insertion of the head into a set over the rest, or it
does not. -/
theorem exists_range_of_subset (l : List Nat) :
    ∃ sets : List (SortedSet Nat), ∀ s : SortedSet Nat, (∀ x ∈ s, x ∈ l) → s ∈ sets := by
  induction l with
  | nil =>
    refine ⟨[∅], fun s hs => ?_⟩
    have hempty : s = ∅ := SortedSet.ext fun a =>
      ⟨fun ha => absurd (hs a ha) List.not_mem_nil, fun ha => absurd ha SortedSet.not_mem_empty⟩
    exact List.mem_singleton.mpr hempty
  | cons a l ih =>
    obtain ⟨sets, hsets⟩ := ih
    refine ⟨sets ++ sets.map (·.insert a), fun s hs => ?_⟩
    by_cases ha : a ∈ s
    · have herase : s.erase a ∈ sets := hsets _ fun x hx => by
        obtain ⟨hxs, hxa⟩ := SortedSet.mem_erase.mp hx
        exact (List.mem_cons.mp (hs x hxs)).resolve_left hxa
      -- what is taken out and put back makes the same set
      have hinsert : (s.erase a).insert a = s := SortedSet.ext fun x => by
        rw [SortedSet.mem_insert, SortedSet.mem_erase]
        by_cases hxa : x = a
        · simp [hxa, ha]
        · simp [hxa]
      exact List.mem_append_right _ (List.mem_map.mpr ⟨_, herase, hinsert⟩)
    · refine List.mem_append_left _ (hsets s fun x hx => ?_)
      refine (List.mem_cons.mp (hs x hx)).resolve_left ?_
      rintro rfl
      exact ha hx

namespace Nfa

/-- The sets that the letters of the alphabet lead to, the empty one left out. -/
def subsetMoves (n : Nfa) (set : SortedSet Nat) : List (Char × SortedSet Nat) :=
  (n.alphabet.toList.map fun c => (c, n.after set c)).filter (!·.2.isEmpty)

/-- The sets that one letter leads to, for the search. -/
def nextSubsets (n : Nfa) (set : SortedSet Nat) : List (SortedSet Nat) :=
  (n.subsetMoves set).map (·.2)

/-- Only targets of transitions are reached by reading a letter. -/
theorem mem_allTargets_of_mem_after {n : Nfa} {set : SortedSet Nat} {c : Char} {t : Nat}
    (h : t ∈ n.after set c) : t ∈ n.allTargets := by
  obtain ⟨s, hs, hst⟩ := mem_explore_iff.mp (SortedSet.mem_ofList.mp h)
  induction hst with
  | refl =>
    obtain ⟨u, _, hu⟩ := List.mem_flatMap.mp (SortedSet.mem_ofList.mp hs)
    exact mem_allTargets_of_mem_successors hu
  | step _ hz _ => exact mem_allTargets_of_mem_successors hz

/-- All sets that letters lead to are over the targets of transitions, so the search for
them ends. -/
theorem finiteRange_nextSubsets (n : Nfa) : FiniteRange n.nextSubsets := by
  obtain ⟨sets, hsets⟩ := exists_range_of_subset n.allTargets
  refine ⟨sets, fun set next hnext => hsets next fun t ht => ?_⟩
  obtain ⟨⟨c, next'⟩, hmove, rfl⟩ := List.mem_map.mp hnext
  obtain ⟨c', _, hc'⟩ := List.mem_map.mp (List.mem_filter.mp hmove).1
  cases hc'
  exact mem_allTargets_of_mem_after ht

/-- The sets that some word leads to, the initial one first. -/
def subsets (n : Nfa) : List (SortedSet Nat) :=
  explore n.nextSubsets n.finiteRange_nextSubsets [n.initial]

/-- The sets that some word leads to, and where the letters lead from each. -/
def subsetVisits (n : Nfa) : List (SortedSet Nat × List (Char × SortedSet Nat)) :=
  exploreSteps n.subsetMoves (List.map Prod.snd) n.finiteRange_nextSubsets [n.initial]

/-- The transitions of a state are the moves of its set. -/
theorem subsetVisits_eq (n : Nfa) :
    n.subsetVisits = n.subsets.map fun set => (set, n.subsetMoves set) := exploreSteps_eq

/-- The visits of the construction, refused if one of the sets holds a state that does not exist:
of all states that are held the transitions are read. -/
def checkedVisits (n : Nfa) : Except Fault (List (SortedSet Nat × List (Char × SortedSet Nat))) :=
  let visits := n.subsetVisits
  if visits.all fun visit => n.inRange visit.1 then .ok visits else .error .outOfRange

/-- The label of a set: its members' labels in braces. -/
def subsetLabel (n : Nfa) (set : SortedSet Nat) : Except Fault String := do
  let labels ← set.toList.mapM n.label
  return "\x7b" ++ ",".intercalate labels ++ "\x7d"

/-- What the construction says about a set: its label, and that it is final if a member
is. -/
def subsetNaming (n : Nfa) : StateNaming (SortedSet Nat) where
  label := n.subsetLabel
  isFinal set := set.toList.any n.isFinal

end Nfa

namespace Dfa

/-- The subset automaton. Without a start state nothing can be reached, and it has no states. -/
def ofNfa (n : Nfa) : Except Fault Dfa :=
  match n.start with
  | none => .ok { alphabet := n.alphabet }
  | some _ => do ofElements n.alphabet n.subsetNaming (← n.checkedVisits)

/-- The log of `ofNfa`. -/
def ofNfaEvents (n : Nfa) (d : Dfa) : List Event :=
  match n.start with
  | none => []
  | some _ => [.determinized n.stateCount d.stateCount]

end Dfa

end PatternAutomata
