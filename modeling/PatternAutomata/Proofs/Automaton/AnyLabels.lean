import Mathlib.Data.List.Permutation
import PatternAutomata.Proofs.Automaton.Built
import PatternAutomata.Proofs.Automaton.SharedLabels
import PatternAutomata.Proofs.Automaton.Subset

/-!
# Pattern automata — automata with labels of any kind

Determinization and interleaving join the labels of states with commas, and a
state is made by its label. The labels of automata that are made from patterns
are told apart then, but an automaton that is built by hand may have any labels.
Where one of them holds commas, two sets or two pairs can get the same label, and
with it the same state.

Neither construction fails on any automaton. The languages are right if no two
sets, or pairs, that are reached have the same label, as is so where labels hold
no commas. A product whose pairs share labels still accepts every interleaving,
but it may accept more, and a determinized automaton may accept other words.

## Results

* `Nfa.subsetsDistinct_of_commaFree`, `Nfa.distinct_of_commaFree_left`,
  `Nfa.distinct_of_commaFree_right` — labels without commas tell sets and pairs apart.
* `Dfa.accepts_ofNfa` — determinization keeps the language, if the labels of sets are distinct,
* `Dfa.ofNfa_comma_labels` — and in general it does not.
* `Nfa.accepts_interleave` — a product accepts the interleavings, if the labels of pairs are
  distinct, and all of them in any case,
* `Nfa.interleave_comma_labels` — but in general not only these.
-/

namespace PatternAutomata

-- ---------------------------------------------------------------------------
-- Automata built by hand
-- ---------------------------------------------------------------------------

namespace Nfa

variable {n : Nfa}

theorem accepts_eq_true_iff (hn : n.Valid) {word : String} :
    n.accepts word = .ok true ↔ n.Accepting word.toList := by
  rw [accepts_eq hn, ← any_isFinal_afterWord_iff, Except.ok.injEq]

/-- A state from which `c` leads to a second one, which is final. Two arrows with the
right labels are enough to make two pairs share a label. -/
def arrow (first : String) (c : Char) (last : String) : Except Fault Nfa := do
  let (n, s) := ({} : Nfa).addState first
  let (n, t) := n.addState last
  (← (← n.setStart s).addFinal t).addTransition s (.char c) t

/-- An arrow is made by operations. -/
theorem arrow_built {first last : String} {c : Char} (h : arrow first c last = .ok n) :
    n.Built := by
  obtain ⟨_, hstart, h⟩ := bind_eq_ok.mp h
  obtain ⟨_, hfinal, hc⟩ := bind_eq_ok.mp h
  exact .addTransition (.addFinal (.setStart ((Built.empty.addState first).addState last) hstart)
    hfinal) hc

/-- All that an arrow has, if its labels are not the same. An arrow is the least automaton
with labels that one can choose, so it serves to build examples of shared labels. -/
theorem exists_arrow {first last : String} (c : Char) (h : first ≠ last) :
    ∃ n, arrow first c last = .ok n ∧ n.labels.toList = [first, last] ∧ n.start = some 0 ∧
      (∀ x, x ∈ n.finals ↔ x = 1) ∧ ∀ x a y, n.Edge x a y ↔ (x, a, y) = (0, .char c, 1) := by
  have hfirst : ({} : Nfa).find? first = none := StateTable.find?_eq_none_iff.mpr (by simp)
  let one := withState {} first hfirst
  have hlabels : one.labels.toList = [first] := toList_labels_withState
  have hlast : one.find? last = none :=
    StateTable.find?_eq_none_iff.mpr (by simpa [hlabels] using h.symm)
  let two := (one.withState last hlast).withStart 0
  have hcount : two.stateCount = 2 := stateCount_withState (h := hlast)
  let final := two.withFinals (two.finals.insert 1)
  have hrows : final.rows.size = 2 := rfl
  have hstart : (one.withState last hlast).setStart 0 = .ok two :=
    setStart_eq (show 0 < two.stateCount by omega)
  have hfinal : two.addFinal 1 = .ok final := addFinal_eq (by omega)
  have hadd : final.addTransition 0 (.char c) 1 = .ok (final.extend [(0, .char c, 1)] []) :=
    addTransition_eq (by omega) (by omega)
  refine ⟨final.extend [(0, .char c, 1)] [], ?_, ?_, rfl, fun x => ?_, fun x a y => ?_⟩
  · -- the five operations in turn
    unfold arrow
    rw [addState_of_find?_eq_none hfirst]
    dsimp only
    rw [addState_of_find?_eq_none hlast]
    show ((one.withState last hlast).setStart 0 >>= fun n : Nfa =>
      n.addFinal 1 >>= fun n : Nfa => n.addTransition 0 (.char c) 1) = _
    rw [hstart, ok_bind, hfinal, ok_bind, hadd]
  · show (one.withState last hlast).labels.toList = _
    rw [toList_labels_withState, hlabels]
    rfl
  · show x ∈ (∅ : SortedSet Nat).insert 1 ↔ _
    simp
  · rw [edge_extend (by simp [hrows]), List.mem_singleton]
    refine or_iff_right fun he => ?_
    have hempty : ({} : Nfa).Edge x a y := (edge_withState (h := hfirst)).mp
      ((edge_withState (h := hlast)).mp he)
    exact not_edge_of_size_le (Nat.zero_le x) hempty

/-- An arrow accepts nothing without reading: the start is not final, and no `ε` leads
on. -/
theorem not_accepts_nil {c : Char} (hn : n.Valid) (hstart : n.start = some 0)
    (hfinals : ∀ x, x ∈ n.finals ↔ x = 1)
    (hedge : ∀ x a y, n.Edge x a y ↔ (x, a, y) = (0, .char c, 1)) :
    n.accepts "" ≠ .ok true := by
  rw [ne_eq, accepts_eq_true_iff hn]
  rintro ⟨x, hx, y, hy, hp⟩
  obtain rfl := Option.some.inj (hstart.symm.trans hx)
  obtain rfl := (hfinals y).mp hy
  cases path_nil_iff_reaches.mp hp with
  | step _ he => exact nomatch (hedge _ .epsilon _).mp he

/-- An arrow on `x` with a further state, to which `ε` leads from the first one. Before
`x` two states are held, and one after it. -/
def fork (first second last : String) : Except Fault Nfa := do
  let (n, s) := (← arrow first 'x' last).addState second
  n.addTransition 0 .epsilon s

theorem fork_built {first second last : String} (h : fork first second last = .ok n) :
    n.Built := by
  obtain ⟨_, harrow, hepsilon⟩ := bind_eq_ok.mp h
  exact .addTransition (.addState second (arrow_built harrow)) hepsilon

end Nfa

-- ---------------------------------------------------------------------------
-- Sets of states
-- ---------------------------------------------------------------------------

namespace Nfa

variable {n : Nfa}

/-- Labels without commas tell sets of states apart, as a text with commas is split at
them in one way only. The empty set is an exception: it has the same label as the set of
one state whose label is empty. It is only reached if there is no start. -/
theorem subsetsDistinct_of_commaFree (hn : n.Valid) (h : ∀ x ∈ n.labels.toList, CommaFree x) :
    n.SubsetsDistinct := by
  intro x hx y hy hname
  cases hstart : n.start with
  | none =>
    -- without a start the empty set is all that is held
    have hempty : ∀ z ∈ n.subsets, z = ∅ := by
      intro z hz
      obtain ⟨w, rfl⟩ := Dfa.exists_word_of_mem_explore hz
      rw [initial_eq_empty hstart]
      exact afterWord_empty w
    rw [hempty x hx, hempty y hy]
  | some s =>
    have hfree : ∀ z ∈ n.subsets, ∀ label ∈ z.toList.map n.nameOf, CommaFree label := by
      intro z hz label hlabel
      obtain ⟨t, ht, rfl⟩ := List.mem_map.mp hlabel
      exact h _ (StateTable.nameOf_mem (lt_of_mem_subsets hn hz t (SortedSet.mem_toList.mp ht)))
    have hne : ∀ z ∈ n.subsets, z.toList.map n.nameOf ≠ [] := by
      intro z hz hnil
      refine ne_empty_of_mem_subsets hstart hz (SortedSet.ext fun t => ?_)
      rw [← SortedSet.mem_toList, List.map_eq_nil_iff.mp hnil]
      simp
    have hlists := braces_inj (hfree x hx) (hfree y hy) (hne x hx) (hne y hy) hname
    have hlt := fun z (hz : z ∈ n.subsets) => lt_of_mem_subsets hn hz
    exact SortedSet.ext fun t => ⟨mem_of_map_nameOf_eq (hlt x hx) (hlt y hy) hlists,
      mem_of_map_nameOf_eq (hlt y hy) (hlt x hx) hlists.symm⟩

end Nfa

namespace Dfa

open Nfa

variable {n : Nfa} {set : SortedSet Nat} {s : Nat}

/-- A determinized automaton is made, whatever the labels are, and every set has a state.
So it never fails, and what may go wrong is only that sets share a state. -/
theorem exists_ofNfa (hn : n.Valid) (hstart : n.start = some s) :
    ∃ d, ofNfa n = .ok d ∧ d.Valid ∧
      (∃ i, d.start = some i ∧ d.find? (n.subsetName n.initial) = some i) ∧
      ∀ set ∈ n.subsets, d.HasState (n.subsetName set) (n.subsetNaming.isFinal set) := by
  obtain ⟨rest, hrest⟩ := n.exists_subsets_eq_cons
  have hlabel : ∀ set ∈ n.subsets, n.subsetNaming.label set = .ok (n.subsetName set) :=
    fun set hset => subsetLabel_eq_ok (lt_of_mem_subsets hn hset)
  have hmoves : ∀ set ∈ n.subsets, ∀ move ∈ n.subsetMoves set,
      n.subsetNaming.label move.2 = .ok (n.subsetName move.2) :=
    fun set hset move hmove => hlabel move.2 (target_mem_subsets hset hmove)
  unfold ofNfa
  rw [hstart, checkedVisits_eq hn]
  rw [hrest] at hlabel hmoves ⊢
  exact exists_ofElements hlabel hmoves

/-- **Subsets under any labels**: a determinized automaton is made, and accepts the same
words if the labels of the sets that are reached are distinct. The premise is on the
reached sets alone, so it can be decided by running the search; labels without commas
satisfy it always. -/
theorem accepts_ofNfa (h : n.Built) :
    ∃ d, ofNfa n = .ok d ∧ (n.SubsetsDistinct → ∀ word : String, ∃ b,
      n.accepts word = .ok b ∧ d.accepts word = .ok b) := by
  -- made in any case, with a start and without one
  have hmade : ∃ d, ofNfa n = .ok d := by
    cases hstart : n.start with
    | none => exact ⟨{ alphabet := n.alphabet }, by rw [ofNfa, hstart]⟩
    | some s =>
      obtain ⟨d, hd, -⟩ := exists_ofNfa h.valid hstart
      exact ⟨d, hd⟩
  obtain ⟨d, hd⟩ := hmade
  refine ⟨d, hd, fun hdistinct word => ?_⟩
  obtain ⟨d', hd', haccepts⟩ := ofNfa_eq_ok h.valid hdistinct
  obtain rfl := Except.ok.inj (hd.symm.trans hd')
  obtain ⟨b, hb, -⟩ := Nfa.accepts_eq_ok h.valid word
  exact ⟨b, hb, (haccepts word).trans hb⟩

/-- A fork whose labels hold no commas. -/
theorem accepts_ofNfa_of_commaFree_fork :
    ∃ n d, Nfa.fork "a" "b" "c" = .ok n ∧ n.Built ∧ ofNfa n = .ok d ∧
      ∀ word : String, ∃ b, n.accepts word = .ok b ∧ d.accepts word = .ok b := by
  have hlabels : (do return (← Nfa.fork "a" "b" "c").labels.toList) = .ok ["a", "c", "b"] := by cbv
  obtain ⟨n, hn, hlabels⟩ := bind_eq_ok.mp hlabels
  obtain ⟨d, hd, haccepts⟩ := accepts_ofNfa (fork_built hn)
  have hdistinct : n.SubsetsDistinct := by
    refine subsetsDistinct_of_commaFree (fork_built hn).valid ?_
    rw [Except.ok.inj hlabels]
    decide
  exact ⟨n, d, hn, fork_built hn, hd, haccepts hdistinct⟩

/-- A final set that shares its label with the initial one makes the empty word accepted.
Both are one state then, which is the start and final. -/
theorem accepts_nil_of_shared_label (hn : n.Valid) (hstart : n.start = some s)
    (hset : set ∈ n.subsets) (hfinal : n.subsetNaming.isFinal set = true)
    (hname : n.subsetName set = n.subsetName n.initial) :
    ∃ d, ofNfa n = .ok d ∧ d.accepts "" = .ok true := by
  obtain ⟨d, hd, hvalid, ⟨i, hi, hfind⟩, hall⟩ := exists_ofNfa hn hstart
  obtain ⟨j, hj, hmem⟩ := hall set hset
  rw [hname] at hj
  obtain rfl := Option.some.inj (hfind.symm.trans hj)
  refine ⟨d, hd, ?_⟩
  rw [Dfa.accepts_eq hvalid, hi]
  refine congrArg Except.ok ?_
  show decide (i ∈ d.finals) = true
  exact decide_eq_true (hmem hfinal)

/-- Before `x` the states `a` and `b` are held and after it the state `a,b`, so both sets
have one label. The second one is merged into the first, and the empty word is accepted. -/
theorem ofNfa_comma_labels :
    ∃ n d, Nfa.fork "a" "b" "a,b" = .ok n ∧ n.Built ∧ ofNfa n = .ok d ∧
      n.accepts "" = .ok false ∧ d.accepts "" = .ok true := by
  have hempty : (do (← Nfa.fork "a" "b" "a,b").accepts "") = .ok false := by cbv
  have hstart : (do return (← Nfa.fork "a" "b" "a,b").start) = .ok (some 0) := by cbv
  -- the set after `x` is final, and its label is that of the set at the start
  have hshared : (do
      let n ← Nfa.fork "a" "b" "a,b"
      return (n.subsetMoves n.initial).any fun move => n.subsetNaming.isFinal move.2 &&
        n.subsetName move.2 == n.subsetName n.initial) = .ok true := by cbv
  obtain ⟨n, hn, hempty⟩ := bind_eq_ok.mp hempty
  rw [hn, ok_bind] at hstart hshared
  obtain ⟨⟨c, set⟩, hmove, hshares⟩ := List.any_eq_true.mp (Except.ok.inj hshared)
  obtain ⟨hfinal, hname⟩ := Bool.and_eq_true_iff.mp hshares
  obtain ⟨rest, hrest⟩ := n.exists_subsets_eq_cons
  have hset : set ∈ n.subsets := target_mem_subsets (hrest ▸ List.mem_cons_self) hmove
  obtain ⟨d, hd, haccepts⟩ := accepts_nil_of_shared_label (fork_built hn).valid
    (Except.ok.inj hstart) hset hfinal (beq_iff_eq.mp hname)
  exact ⟨n, d, hn, fork_built hn, hd, hempty, haccepts⟩

end Dfa

-- ---------------------------------------------------------------------------
-- Pairs of states
-- ---------------------------------------------------------------------------

namespace Nfa

variable {l r n : Nfa} {s t : Nat} {origin : Nat × Nat}

/-- Labels of a left operand without commas tell pairs apart: the first comma of a pair's
label ends that of its left member, whatever the right one's is. -/
theorem distinct_of_commaFree_left (hl : l.Valid) (hr : r.Valid) (horigin : HasPair l r origin)
    (h : ∀ x ∈ l.labels.toList, CommaFree x) : Distinct l r origin := by
  intro p hp q hq hname
  have hp := hasPair_of_mem_reachedPairs hl hr horigin hp
  have hq := hasPair_of_mem_reachedPairs hl hr horigin hq
  obtain ⟨hleft, hright⟩ := pairText_inj_left (h _ (StateTable.nameOf_mem hp.1))
    (h _ (StateTable.nameOf_mem hq.1)) hname
  exact Prod.ext (StateTable.nameOf_inj hp.1 hq.1 hleft) (StateTable.nameOf_inj hp.2 hq.2 hright)

/-- Labels of a right operand without commas do so as well, as the last comma begins its
label. -/
theorem distinct_of_commaFree_right (hl : l.Valid) (hr : r.Valid) (horigin : HasPair l r origin)
    (h : ∀ x ∈ r.labels.toList, CommaFree x) : Distinct l r origin := by
  intro p hp q hq hname
  have hp := hasPair_of_mem_reachedPairs hl hr horigin hp
  have hq := hasPair_of_mem_reachedPairs hl hr horigin hq
  obtain ⟨hleft, hright⟩ := pairText_inj_right (h _ (StateTable.nameOf_mem hp.2))
    (h _ (StateTable.nameOf_mem hq.2)) hname
  exact Prod.ext (StateTable.nameOf_inj hp.1 hq.1 hleft) (StateTable.nameOf_inj hp.2 hq.2 hright)

/-- The word is an interleaving of accepted words. This is what a product should accept. -/
def IsShuffle (l r : Nfa) (word : String) : Prop :=
  ∃ u v : String, l.accepts u = .ok true ∧ r.accepts v = .ok true ∧
    Interleaving u.toList v.toList word.toList

/-- The same with paths for acceptance. Both automata are valid, so running them answers
what paths say. -/
theorem isShuffle_iff (hl : l.Valid) (hr : r.Valid) {word : String} :
    IsShuffle l r word ↔
      ∃ u v, l.Accepting u ∧ r.Accepting v ∧ Interleaving u v word.toList := by
  unfold IsShuffle
  simp only [accepts_eq_true_iff hl, accepts_eq_true_iff hr]
  constructor
  · rintro ⟨u, v, h⟩
    exact ⟨u.toList, v.toList, h⟩
  · rintro ⟨u, v, h⟩
    exact ⟨String.ofList u, String.ofList v, by simpa only [String.toList_ofList] using h⟩

/-- **Products under any labels**: a product is made. It accepts all interleavings of
accepted words, and if the labels of the pairs that are reached are distinct, it accepts
nothing else. For the first half every pair needs a state, for the second each needs one
of its own. -/
theorem accepts_interleave (hl : l.Built) (hr : r.Built) (hs : l.start = some s)
    (ht : r.start = some t) :
    ∃ n, l.interleave r = .ok n ∧
      (∀ word, IsShuffle l r word → n.accepts word = .ok true) ∧
      (Distinct l r (s, t) → ∀ word, ∃ b, n.accepts word = .ok b ∧
        (b = true ↔ IsShuffle l r word)) := by
  have horigin : HasPair l r (s, t) := ⟨hl.valid.start_lt s hs, hr.valid.start_lt t ht⟩
  obtain ⟨n, hn, hcovers⟩ := exists_interleaveFrom hl.valid hr.valid horigin
  refine ⟨n, (interleave_eq hs ht).trans hn, fun word hword => ?_, fun hdistinct word => ?_⟩
  · -- every pair has a state, its own or a shared one, so the path is there
    obtain ⟨u, v, hu, hv, hw⟩ := (isShuffle_iff hl.valid hr.valid).mp hword
    exact (accepts_eq_true_iff hcovers.valid).mpr
      (hcovers.accepting hl.valid hr.valid hs ht hu hv hw)
  · -- with labels apart the same automaton is the product, so it has no other paths
    obtain ⟨n', hn', hproduct⟩ := interleaveFrom_eq_ok hl.valid hr.valid horigin hdistinct
    obtain rfl := Except.ok.inj (hn.symm.trans hn')
    obtain ⟨b, hb, hiff⟩ := accepts_eq_ok hcovers.valid word
    refine ⟨b, hb, hiff.trans ?_⟩
    rw [isShuffle_iff hl.valid hr.valid]
    exact hproduct.accepting_iff hl.valid hr.valid hs ht

/-- Two arrows, of which the left one has no commas in its labels. -/
theorem accepts_interleave_of_commaFree_left :
    ∃ l r n, arrow "a" 'x' "b" = .ok l ∧ arrow "c" 'y' "c,d" = .ok r ∧ l.Built ∧ r.Built ∧
      l.interleave r = .ok n ∧ ∀ word : String, ∃ b, n.accepts word = .ok b ∧
        (b = true ↔ IsShuffle l r word) := by
  obtain ⟨l, hl, hlabels, hs, -⟩ :=
    exists_arrow 'x' (show ("a" : String) ≠ "b" by decide)
  obtain ⟨r, hr, -, ht, -⟩ := exists_arrow 'y' (show ("c" : String) ≠ "c,d" by decide)
  have hl' := arrow_built hl
  have hr' := arrow_built hr
  obtain ⟨n, hn, -, hiff⟩ := accepts_interleave hl' hr' hs ht
  refine ⟨l, r, n, hl, hr, hl', hr', hn, hiff ?_⟩
  refine distinct_of_commaFree_left hl'.valid hr'.valid
    ⟨hl'.valid.start_lt 0 hs, hr'.valid.start_lt 0 ht⟩ ?_
  rw [hlabels]
  decide

/-- The pair at the start and the one at the end are both labelled with `a,b,c` in
brackets. As the latter is final, their common state is, and the product accepts the empty
word, which is no interleaving of accepted ones. -/
theorem interleave_comma_labels :
    ∃ l r n, arrow "a" 'x' "a,b" = .ok l ∧ arrow "b,c" 'y' "c" = .ok r ∧ l.Built ∧ r.Built ∧
      l.interleave r = .ok n ∧ ¬ IsShuffle l r "" ∧ n.accepts "" = .ok true := by
  obtain ⟨l, hl, hlabels, hs, hfinal, hx⟩ :=
    exists_arrow 'x' (show ("a" : String) ≠ "a,b" by decide)
  obtain ⟨r, hr, hlabels', ht, hfinal', hy⟩ :=
    exists_arrow 'y' (show ("b,c" : String) ≠ "c" by decide)
  have hl' := (arrow_built hl).valid
  have hr' := (arrow_built hr).valid
  have horigin : HasPair l r (0, 0) := ⟨hl'.start_lt 0 hs, hr'.start_lt 0 ht⟩
  -- the pair at the end is reached: first the left operand moves and then the right one
  have hlast : (1, 1) ∈ reachedPairs l r (0, 0) := by
    have hfirst : (0, 0) ∈ reachedPairs l r (0, 0) :=
      List.mem_of_getElem? getElem?_zero_reachedPairs
    have hmiddle : (1, 0) ∈ reachedPairs l r (0, 0) :=
      mem_reachedPairs_of_edge hl' hr' horigin hfirst (.inl ⟨(hx _ _ _).mpr rfl, rfl⟩)
    exact mem_reachedPairs_of_edge hl' hr' horigin hmiddle (.inr ⟨(hy _ _ _).mpr rfl, rfl⟩)
  have hname : pairName l r (1, 1) = pairName l r (0, 0) := by
    simp only [pairName, StateTable.nameOf, hlabels, hlabels']
    decide
  obtain ⟨n, hn, hcovers⟩ := exists_interleaveFrom hl' hr' horigin
  refine ⟨l, r, n, hl, hr, arrow_built hl, arrow_built hr, ?_, ?_, ?_⟩
  · rw [interleave, hs, ht]
    exact hn
  · rintro ⟨u, v, hu, -, hw⟩
    have hempty : u = "" := String.toList_eq_nil_iff.mp hw.left_eq_nil
    exact not_accepts_nil hl' hs hfinal hx (hempty ▸ hu)
  · exact (accepts_eq_true_iff hcovers.valid).mpr
      (hcovers.accepting_nil hlast ⟨(hfinal 1).mpr rfl, (hfinal' 1).mpr rfl⟩ hname)

end Nfa

end PatternAutomata
