import Mathlib.Data.Char
import PatternAutomata.Proofs.Automaton.AnyLabels
import PatternAutomata.Proofs.BreadthFirst

/-!
# Pattern automata — what the states of the subset automaton stand for

Where the labels of the sets that are held after words are distinct, the subset
automaton has one state for each of these sets, except the empty one, and nothing
else. The states are numbered by the least words after which their sets are held:
the search tries the letters of the alphabet by code point, and its walks are the
words over the alphabet after which something is held.

## Results

* `walk_setMoves_iff`     — the walks of a search for sets are words.
* `ofNfa_isSubsetAutomaton` — the subset automaton of what operations build.
-/

namespace PatternAutomata

namespace Dfa

variable {letters word : List Char} {next : SortedSet Nat → Char → SortedSet Nat}
  {first set : SortedSet Nat}

theorem lt_of_rank_lt {c e : Char} (h : Ranked.rank c < Ranked.rank e) : c < e :=
  UInt32.lt_iff_toNat_lt.mpr h

/-- The letters of the moves are in the order of the letters that are tried. Letters that
lead nowhere are left out, which does not change the order of the others. -/
theorem sorted_setMoves (hletters : letters.Pairwise (· < ·)) (set : SortedSet Nat) :
    ((setMoves letters next set).map (·.1)).Pairwise (· < ·) := by
  have hall : (letters.map fun c => (c, next set c)).map Prod.fst = letters := by
    simp [Function.comp_def]
  refine hletters.sublist ?_
  have hsublist : ((setMoves letters next set).map Prod.fst).Sublist
      ((letters.map fun c => (c, next set c)).map Prod.fst) := List.filter_sublist.map Prod.fst
  rwa [hall] at hsublist

/-- The walks of a search for sets are the words over its letters that do not lead to the
empty set. Such a word never passes through the empty set on its way, since nothing leads
out of that. -/
theorem walk_setMoves_iff (hfirst : first ≠ ∅) (hempty : ∀ c, next ∅ c = ∅) :
    Walk (setMoves letters next) first word set ↔
      (∀ c ∈ word, c ∈ letters) ∧ set ≠ ∅ ∧ word.foldl next first = set := by
  constructor
  · intro h
    induction h with
    | nil => exact ⟨nofun, hfirst, rfl⟩
    | @concat w c x y _ hm ih =>
      obtain ⟨hw, -, rfl⟩ := ih
      obtain ⟨hc, rfl, hne⟩ := mem_setMoves.mp hm
      refine ⟨?_, hne, by rw [List.foldl_append]; rfl⟩
      intro e he
      rcases List.mem_append.mp he with he | he
      · exact hw e he
      · exact List.mem_singleton.mp he ▸ hc
  · rintro ⟨hletters, hne, rfl⟩
    -- a walk grows at its end, as the word is read from its beginning
    induction word using List.reverseRecOn with
    | nil => exact .nil
    | append_singleton w c ih =>
      rw [List.foldl_append] at hne ⊢
      -- nothing is held after more letters once nothing is held
      have hbefore : w.foldl next first ≠ ∅ := fun h => hne (by rw [h]; exact hempty c)
      have hc : c ∈ letters := hletters c (by simp)
      exact (ih (fun e he => hletters e (List.mem_append_left _ he)) hbefore).concat
        (mem_setMoves.mpr ⟨hc, rfl, hne⟩)

end Dfa

namespace Nfa

variable {n : Nfa} {word : List Char} {set : SortedSet Nat} {s : Nat}

/-- After the word, which is one over the alphabet, `set` is held, and that is not empty. -/
def LeadsToSet (n : Nfa) (word : List Char) (set : SortedSet Nat) : Prop :=
  (∀ c ∈ word, c ∈ n.alphabet) ∧ set ≠ ∅ ∧ n.heldAfter word = .ok set

theorem nextSubsets_eq (set : SortedSet Nat) : n.nextSubsets set = (n.subsetMoves set).map (·.2) :=
  rfl

/-- The search for subsets walks along the words after which something is held. -/
theorem walk_subsetMoves_iff (hn : n.Valid) (hstart : n.start = some s) :
    Walk n.subsetMoves n.initial word set ↔ n.LeadsToSet word set := by
  have hfirst : n.initial ≠ ∅ :=
    SortedSet.ne_empty_iff.mpr ⟨s, mem_initial.mpr ⟨s, hstart, .refl s⟩⟩
  unfold LeadsToSet
  rw [heldAfter_eq hn, Except.ok.injEq]
  exact Dfa.walk_setMoves_iff hfirst n.after_empty

/-- What is found are the sets that are held after words, except the empty one. -/
theorem mem_subsets_iff (hn : n.Valid) (hstart : n.start = some s) :
    set ∈ n.subsets ↔ ∃ word, n.LeadsToSet word set := by
  unfold subsets
  rw [mem_explore_iff]
  simp only [List.mem_singleton, exists_eq_left, reaches_iff_exists_walk nextSubsets_eq,
    walk_subsetMoves_iff hn hstart]

/-- The sets are found in the order of the least words after which they are held. A search
that is breadth first finds things in the order of their least walks, if moves are tried
in order. -/
theorem subsets_inWordOrder (hn : n.Valid) (hstart : n.start = some s) :
    InWordOrder n.LeadsToSet n.subsets := by
  have hletters : n.alphabet.toList.Pairwise (· < ·) :=
    n.alphabet.sorted.imp fun hlt => Dfa.lt_of_rank_lt hlt
  refine (explore_inWordOrder nextSubsets_eq (Dfa.sorted_setMoves hletters)).congr ?_
  intro w x _
  exact walk_subsetMoves_iff hn hstart

end Nfa

namespace Dfa

open Nfa

variable {n : Nfa} {s : Nat}

/-- The automaton `d` is the accessible part of the subset automaton of `n`: state `i` is the set
at place `i` of `sets`. -/
structure IsSubsetAutomaton (n : Nfa) (sets : List (SortedSet Nat)) (d : Dfa) : Prop where
  nodup : sets.Nodup
  /-- The sets are those that are held after words over the alphabet, except the empty one. -/
  mem_iff : ∀ set, set ∈ sets ↔ ∃ word, n.LeadsToSet word set
  /-- They are discovered breadth first, letters by code point. -/
  order : InWordOrder n.LeadsToSet sets
  stateCount : d.stateCount = sets.length
  /-- A state shows the labels of the members, in the order of these. -/
  label : ∀ i set, sets[i]? = some set → ∃ labels, set.toList.mapM n.label = .ok labels ∧
    d.label i = .ok ("\x7b" ++ ",".intercalate labels ++ "\x7d")
  /-- A letter leads to the state of the next set, and nowhere if that is empty. -/
  next : ∀ i set c, sets[i]? = some set → ∃ target, n.step set c = .ok target ∧
    (target = ∅ ∧ d.next i c = .ok none ∨
      ∃ j, sets[j]? = some target ∧ d.next i c = .ok (some j))
  isFinal_iff : ∀ i, d.isFinal i = true ↔
    ∃ set, sets[i]? = some set ∧ ∃ x ∈ set, n.isFinal x = true
  start : d.start = some 0 ∧ ∃ set, n.initialSet = .ok set ∧ sets[0]? = some set
  alphabet : d.alphabet = n.alphabet

/-- Where a search leads from a set on a letter: to the state of the next set, or nowhere
if that is empty. A letter outside the alphabet is of the second kind. -/
theorem IsSearch.next_subset {d : Dfa} {i : Nat} {set : SortedSet Nat} (hn : n.Valid)
    (hsearch : IsSearch n.subsetNaming n.subsetName n.subsetMoves n.alphabet n.subsets d)
    (hi : n.subsets[i]? = some set) (c : Char) :
    n.after set c = ∅ ∧ d.next i c = .ok none ∨
      ∃ j, n.subsets[j]? = some (n.after set c) ∧ d.next i c = .ok (some j) := by
  have hlt : i < d.rows.size := by
    rw [hsearch.valid.size_rows, StateTable.stateCount_eq hsearch.labels, List.length_map]
    exact (List.getElem?_eq_some_iff.mp hi).1
  rw [next_eq hlt]
  by_cases hempty : n.after set c = ∅
  · refine .inl ⟨hempty, congrArg Except.ok (Option.eq_none_iff_forall_ne_some.mpr ?_)⟩
    intro j hj
    obtain ⟨x, y, hx, -, hm⟩ := (hsearch.nextOf i c j).mp hj
    obtain rfl := Option.some.inj (hi.symm.trans hx)
    obtain ⟨-, rfl, hne⟩ := mem_setMoves.mp hm
    exact hne hempty
  · -- the next set is not empty, so the letter is one that some transition reads
    have hc : c ∈ n.alphabet :=
      Decidable.byContradiction fun hc => hempty (after_eq_empty hn hc set)
    have hmove : (c, n.after set c) ∈ n.subsetMoves set := mem_setMoves.mpr ⟨hc, rfl, hempty⟩
    obtain ⟨j, hj⟩ := List.getElem?_of_mem (target_mem_subsets (List.mem_of_getElem? hi) hmove)
    exact .inr ⟨j, hj, congrArg Except.ok ((hsearch.nextOf i c j).mpr ⟨_, _, hi, hj, hmove⟩)⟩

/-- **States of determinized automata are sets**: where distinct sets that are held after
words have distinct labels, the subset automaton of an automaton that operations build is
made. Its states are these sets, in the order in which a search by letters meets them. -/
theorem ofNfa_isSubsetAutomaton (h : n.Built) (hstart : n.start = some s)
    (hdistinct : n.SubsetsDistinct) :
    ∃ d sets, ofNfa n = .ok d ∧ IsSubsetAutomaton n sets d := by
  have hn := h.valid
  obtain ⟨d, hd, hsearch, -⟩ := exists_subsetSearch hn hdistinct hstart
  have hzero : n.subsets[0]? = some n.initial := getElem?_zero_explore
  refine ⟨d, n.subsets, hd, {
    nodup := nodup_explore
    mem_iff := fun set => mem_subsets_iff hn hstart
    order := subsets_inWordOrder hn hstart
    stateCount := by rw [StateTable.stateCount_eq hsearch.labels, List.length_map]
    label := ?_
    next := ?_
    isFinal_iff := ?_
    start := ⟨hsearch.start, n.initial, initialSet_eq hn, hzero⟩
    alphabet := SortedSet.ext hsearch.mem_alphabet }⟩
  · -- labels are those of members, all of which exist
    intro i set hi
    have hlt := lt_of_mem_subsets hn (List.mem_of_getElem? hi)
    exact ⟨_, mapM_eq_ok fun x hx => StateTable.label_eq_ok (hlt x hx), hsearch.label_eq hi⟩
  · -- where the step leads is the set after the letter, or nothing if that is empty
    intro i set c hi
    have hlt := lt_of_mem_subsets hn (List.mem_of_getElem? hi)
    exact ⟨_, step_eq hn hlt c, hsearch.next_subset hn hi c⟩
  · intro i
    rw [StateTable.isFinal, decide_eq_true_iff, hsearch.mem_finals]
    simp only [subsetNaming, List.any_eq_true, SortedSet.mem_toList]

/-- With a state that is held beside another one, and a letter that leads to a third one. -/
theorem ofNfa_isSubsetAutomaton_of_fork :
    ∃ n d sets, Nfa.fork "a" "b" "c" = .ok n ∧ n.Built ∧ n.start = some 0 ∧ n.SubsetsDistinct ∧
      ofNfa n = .ok d ∧ IsSubsetAutomaton n sets d := by
  have hshape : (do
      let n ← Nfa.fork "a" "b" "c"
      return (n.labels.toList, n.start)) = .ok (["a", "c", "b"], some 0) := by cbv
  obtain ⟨n, hn, hshape⟩ := bind_eq_ok.mp hshape
  obtain ⟨hlabels, hstart⟩ := Prod.mk.inj (Except.ok.inj hshape)
  have hdistinct : n.SubsetsDistinct := by
    refine subsetsDistinct_of_commaFree (fork_built hn).valid ?_
    rw [hlabels]
    decide
  obtain ⟨d, sets, hd, hsubset⟩ := ofNfa_isSubsetAutomaton (fork_built hn) hstart hdistinct
  exact ⟨n, d, sets, hn, fork_built hn, hstart, hdistinct, hd, hsubset⟩

end Dfa

end PatternAutomata
