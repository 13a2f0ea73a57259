import PatternAutomata.Automaton.Subset
import PatternAutomata.Proofs.Automaton.OfElements
import PatternAutomata.Proofs.Automaton.Simulation
import PatternAutomata.Proofs.Labels

/-!
# Pattern automata — determinization keeps the language

The subset automaton searches for the sets that a simulation holds. If no two of
these sets have the same label, each has a state of its own, and a run goes from
set to set as the simulation does. Labels that are names of states tell sets
apart; labels in general do not.

## Results

* `exists_subsetSearch` — the subset automaton is the one of the search for sets, if their
  labels are distinct.
* `ofNfa_eq_ok`     — the subset automaton of a valid automaton accepts the same words then.
* `subsetsDistinct_of_names` — the labels are distinct if the states are labelled by names.
-/

namespace PatternAutomata

namespace Nfa

variable {n : Nfa} {set set' : SortedSet Nat} {c : Char} {s : Nat}

-- ---------------------------------------------------------------------------
-- Reached sets
-- ---------------------------------------------------------------------------

theorem after_empty (n : Nfa) (c : Char) : n.after ∅ c = ∅ := afterWord_empty (n := n) [c]

/-- No edge reads a letter outside of the alphabet. -/
theorem after_eq_empty (hn : n.Valid) (hc : c ∉ n.alphabet) (set : SortedSet Nat) :
    n.after set c = ∅ := by
  refine SortedSet.ext fun t => ⟨fun ht => ?_, fun ht => absurd ht SortedSet.not_mem_empty⟩
  obtain ⟨s, -, x, he, -⟩ := mem_after.mp ht
  exact absurd (hn.edge_alphabet s c x he) hc

theorem leadsBy_after (hn : n.Valid) : Dfa.LeadsBy n.alphabet.toList n.after where
  next_empty := n.after_empty
  next_other x _ hc := after_eq_empty hn hc x

/-- All states of a reached set exist. -/
theorem lt_of_mem_subsets (hn : n.Valid) (h : set ∈ n.subsets) : ∀ s ∈ set, s < n.stateCount := by
  intro s hs
  obtain ⟨w, rfl⟩ := Dfa.exists_word_of_mem_explore h
  obtain ⟨start, hstart, hp⟩ := mem_afterWord_initial.mp hs
  exact hn.path_lt hp (hn.start_lt start hstart)

/-- Every state that is held has a row of transitions, so the search is not refused. What
it has visited is each set with its moves, in the order in which the sets were found. -/
theorem checkedVisits_eq (hn : n.Valid) :
    n.checkedVisits = .ok (n.subsets.map fun set => (set, n.subsetMoves set)) := by
  have hrows : n.subsetVisits.all (fun visit => n.inRange visit.1) = true := by
    rw [subsetVisits_eq, List.all_map, List.all_eq_true]
    exact fun set hset => (inRange_iff hn).mpr (lt_of_mem_subsets hn hset)
  unfold checkedVisits
  dsimp only
  rw [if_pos hrows, subsetVisits_eq]

theorem exists_subsets_eq_cons (n : Nfa) : ∃ rest, n.subsets = n.initial :: rest := by
  obtain ⟨rest, hrest⟩ : [n.initial] <+: n.subsets := start_prefix_explore (by simp)
  exact ⟨rest, hrest.symm⟩

/-- The sets that are reached are closed under moves. -/
theorem target_mem_subsets (h : set ∈ n.subsets) {move : Char × SortedSet Nat}
    (hmove : move ∈ n.subsetMoves set) : move.2 ∈ n.subsets := by
  obtain ⟨x, hx, hreach⟩ := mem_explore_iff.mp h
  exact mem_explore_iff.mpr ⟨x, hx, .step hreach (List.mem_map_of_mem hmove)⟩

theorem initial_eq_empty (hstart : n.start = none) : n.initial = ∅ := by
  unfold initial
  rw [hstart]
  rfl

/-- With a start state no empty set is reached. -/
theorem ne_empty_of_mem_subsets (hstart : n.start = some s) (h : set ∈ n.subsets) : set ≠ ∅ := by
  have hmem : s ∈ n.initial := mem_initial.mpr ⟨s, hstart, .refl s⟩
  exact Dfa.ne_empty_of_mem_explore (SortedSet.ne_empty_iff.mpr ⟨s, hmem⟩) h

-- ---------------------------------------------------------------------------
-- Labels of sets
-- ---------------------------------------------------------------------------

/-- The label of a set: the labels of its members, in the order of these, between braces.
This is the label that the construction gives, where all members exist. -/
def subsetName (n : Nfa) (set : SortedSet Nat) : String :=
  "\x7b" ++ ",".intercalate (set.toList.map n.nameOf) ++ "\x7d"

/-- No two sets that are reached have the same label. It cannot be left out: a label with
a comma can make two sets look the same, and then they are one state. -/
def SubsetsDistinct (n : Nfa) : Prop :=
  ∀ x ∈ n.subsets, ∀ y ∈ n.subsets, n.subsetName x = n.subsetName y → x = y

theorem subsetLabel_eq_ok (h : ∀ s ∈ set, s < n.stateCount) :
    n.subsetLabel set = .ok (n.subsetName set) := by
  unfold subsetLabel
  rw [mapM_eq_ok fun s hs => StateTable.label_eq_ok (h s hs)]
  rfl

/-- A state can be told by its label, as no other one has it. So two sets that have the
same labels one by one have the same members. -/
theorem mem_of_map_nameOf_eq (h : ∀ s ∈ set, s < n.stateCount) (h' : ∀ s ∈ set', s < n.stateCount)
    (heq : set.toList.map n.nameOf = set'.toList.map n.nameOf) (hs : s ∈ set) : s ∈ set' := by
  have hmem : n.nameOf s ∈ set.toList.map n.nameOf := List.mem_map_of_mem hs
  rw [heq] at hmem
  obtain ⟨t, ht, hname⟩ := List.mem_map.mp hmem
  obtain rfl := StateTable.nameOf_inj (h' t ht) (h s hs) hname
  exact ht

/-- Sets of states that are labelled by names have different labels. A name can be told
from what follows it, so that the text between the braces is taken apart into names in one
way only. -/
theorem subsetName_inj (hnames : ∀ s, s < n.stateCount → StateName (fun _ => True) (n.nameOf s))
    (h : ∀ s ∈ set, s < n.stateCount) (h' : ∀ s ∈ set', s < n.stateCount)
    (heq : n.subsetName set = n.subsetName set') : set = set' := by
  -- the labels of a set are names, as all its members exist
  have hall : ∀ u : SortedSet Nat, (∀ s ∈ u, s < n.stateCount) →
      ∀ x ∈ u.toList.map n.nameOf, StateName (fun _ => True) x := by
    intro u hu x hx
    obtain ⟨s, hs, rfl⟩ := List.mem_map.mp hx
    exact hnames s (hu s hs)
  have hlists := separable_stateName.braces (fun x hx => hx.exists_head) (hall set h)
    (hall set' h') heq
  exact SortedSet.ext fun s =>
    ⟨mem_of_map_nameOf_eq h h' hlists, mem_of_map_nameOf_eq h' h hlists.symm⟩

/-- So the labels are distinct if the states are labelled by names. -/
theorem subsetsDistinct_of_names (hn : n.Valid)
    (hnames : ∀ s, s < n.stateCount → StateName (fun _ => True) (n.nameOf s)) :
    n.SubsetsDistinct := by
  intro set hset set' hset'
  exact subsetName_inj hnames (lt_of_mem_subsets hn hset) (lt_of_mem_subsets hn hset')

end Nfa

namespace Dfa

open Nfa

variable {n : Nfa}

theorem tellsApart_subsets (hn : n.Valid) (hdistinct : n.SubsetsDistinct) :
    TellsApart n.subsetNaming n.subsetName n.subsets where
  label _ hx := subsetLabel_eq_ok (lt_of_mem_subsets hn hx)
  name_inj := hdistinct
  isFinal_empty := rfl

theorem proper_subsets (hn : n.Valid) (hdistinct : n.SubsetsDistinct) :
    Proper n.subsetNaming n.subsetName n.subsetMoves n.alphabet n.subsets :=
  (tellsApart_subsets hn hdistinct).proper fun _ hc => hc

/-- With a start state, the subset automaton is the one of the search for sets. That all
members of a set have rows is looked at before anything is made, and never fails here. -/
theorem exists_subsetSearch {s : Nat} (hn : n.Valid) (hdistinct : n.SubsetsDistinct)
    (hstart : n.start = some s) :
    ∃ d, ofNfa n = .ok d ∧
      IsSearch n.subsetNaming n.subsetName n.subsetMoves n.alphabet n.subsets d ∧
      ∀ word, d.accepts word = n.accepts word := by
  obtain ⟨d, hd, hsearch, haccepts⟩ := exists_setAutomaton (tellsApart_subsets hn hdistinct)
    (fun c hc => hc) (leadsBy_after hn)
  refine ⟨d, ?_, hsearch, fun word => ?_⟩
  · unfold ofNfa
    rw [hstart, checkedVisits_eq hn]
    exact hd
  · rw [haccepts, Nfa.accepts_eq hn]
    rfl

/-- The subset automaton is made, and accepts the same words. Without a start it is an
automaton without states, and both reject everything. -/
theorem ofNfa_eq_ok (hn : n.Valid) (hdistinct : n.SubsetsDistinct) :
    ∃ d, ofNfa n = .ok d ∧ ∀ word, d.accepts word = n.accepts word := by
  cases hstart : n.start with
  | none =>
    have hvalid := valid_empty n.alphabet
    refine ⟨{ alphabet := n.alphabet }, by rw [ofNfa, hstart], fun word => ?_⟩
    rw [Dfa.accepts_eq hvalid, Nfa.accepts_eq hn, initial_eq_empty hstart, afterWord_empty]
    show Except.ok (Dfa.isFinal? _ (Dfa.afterWord _ none _)) = _
    rw [Dfa.afterWord_none]
    rfl
  | some s =>
    obtain ⟨d, hd, -, haccepts⟩ := exists_subsetSearch hn hdistinct hstart
    exact ⟨d, hd, haccepts⟩

end Dfa

end PatternAutomata
