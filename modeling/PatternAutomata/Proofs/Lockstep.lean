import PatternAutomata.Proofs.Parser.RoundTrip
import PatternAutomata.Proofs.Thompson.Sources
import PatternAutomata.Proofs.Useful

/-!
# Pattern automata — the two constructions in step

The direct construction and Thompson's have no step in common, but where nothing is
interleaved they do the same: after a word, the direct automaton is at the set of
the positions whose states are held by Thompson's automaton, the end marker's
among them. Both sides come down to which position can come next in a word of the
tree. On the side of Thompson's automaton this is the recursion along the
fragments (`Made.exists_source`), on the direct side the table of next positions.

So what the direct automaton is at depends on what is held only, and it cannot
have more states than the subset automaton.

## Results

* `mem_positionsHeld_iff`   — the positions of the set that is held.
* `constructions_inLockstep` — the direct automaton is at the positions that are held.
-/

namespace PatternAutomata

namespace ParseTree

open Workshop

variable {pattern : String} {d : Dialect} {body : Expr Char} {n : Nfa} {hi p : Nat}
  {w : List Char}

-- ---------------------------------------------------------------------------
-- Positions that can come next
-- ---------------------------------------------------------------------------

/-- All leaves but the end marker have a character. -/
theorem exists_char_of_mem_numberedBody {a : Letter × Nat} (h : a ∈ (numberedBody body).leaves) :
    ∃ c, a.1 = .char c := by
  have hmem : a.1 ∈ (numberedBody body).leaves.map (·.1) := List.mem_map_of_mem h
  rw [← Expr.leaves_map, numberedBody, Expr.map_fst_number, Expr.leaves_map] at hmem
  obtain ⟨c, -, hc⟩ := List.mem_map.mp hmem
  exact ⟨c, hc.symm⟩

/-- Leaves with characters spell what they read: each of them reads one letter, so the
letters of the word are those of the leaves in order. -/
theorem map_fst_eq_of_flatMap_reads {as : List (Letter × Nat)}
    (h : ∀ a ∈ as, ∃ c, a.1 = .char c) (hw : as.flatMap (·.1.reads) = w) :
    as.map (·.1) = w.map Letter.char := by
  induction as generalizing w with
  | nil =>
    subst hw
    rfl
  | cons a as ih =>
    obtain ⟨c, hc⟩ := h a List.mem_cons_self
    rw [List.flatMap_cons, hc] at hw
    obtain rfl := hw
    rw [List.map_cons, hc, ih (fun b hb => h b (List.mem_cons_of_mem _ hb)) rfl]
    rfl

/-- The leaves that can be read next are the positions that can come next. The two notions
speak of sequences of leaves and of positions, which are those of the same expression. -/
theorem comesNext_marked_iff :
    body.marked.ComesNext w p ↔ (ofExpr pattern d body).ComesAfter w p := by
  constructor
  · rintro ⟨before, a, after, h, rfl, hw⟩
    have hleaves : ∀ b ∈ before, b ∈ body.marked.leaves := fun b hb => h.mem_leaves b (by simp [hb])
    -- the end marker is last, so what comes before a leaf has characters only
    have hchars : ∀ b ∈ before, ∃ c, b.1 = .char c := by
      have hsplit := h
      rw [marked_eq_concat, Expr.matches_concat_iff] at hsplit
      obtain ⟨x, y, hx, hy, hxy⟩ := hsplit
      rw [Expr.matches_leaf_iff.mp hy] at hxy
      intro b hb
      refine exists_char_of_mem_numberedBody (hx.mem_leaves b ?_)
      rcases append_eq_append_cons hxy with ⟨_, rfl, -⟩ | ⟨u, rfl, hu⟩
      · simp [hb]
      · obtain ⟨rfl, -⟩ := eq_nil_of_singleton_eq_append_cons hu
        simpa using hb
    refine ⟨before.map (·.2), after.map (·.2), passes_root_iff.mpr ?_,
      (spells_map_iff hleaves).mpr (map_fst_eq_of_flatMap_reads hchars hw)⟩
    have hpasses : body.marked.Passes ((before ++ a :: after).map (·.2)) := h.map Prod.snd
    rwa [List.map_append, List.map_cons] at hpasses
  · rintro ⟨u, v, hpasses, hu⟩
    obtain ⟨as, has, hpositions⟩ :=
      Expr.matches_iff_exists_leaves.mp (passes_root_iff.mp hpasses)
    obtain ⟨before, rest, rfl, rfl, hrest⟩ := List.map_eq_append_iff.mp hpositions
    obtain ⟨a, after, rfl, rfl, -⟩ := List.map_eq_cons_iff.mp hrest
    exact ⟨before, a, after, has, rfl,
      flatMap_reads_of_spells (fun b hb => has.mem_leaves b (List.mem_append_left _ hb)) hu⟩

-- ---------------------------------------------------------------------------
-- Positions that are held
-- ---------------------------------------------------------------------------

/-- After a word, the states in front of those positions are held that can come next. A
position is found through the state in front of it, which the fragment of its leaf has
made. -/
theorem mem_positionsHeld_iff (hn : Made body.marked 0 n hi)
    (hshuffle : (ofExpr pattern d body).hasShuffle = false) :
    p ∈ (ofExpr pattern d body).positionsHeld n (n.afterWord n.initial w) ↔
      (ofExpr pattern d body).ComesAfter w p := by
  have hrange : p ∈ List.range' 1 (ofExpr pattern d body).endPosition ↔
      p ∈ body.marked.numbers := by
    have hnumbers : p ∈ body.marked.numbers ↔
        1 ≤ p ∧ p ≤ (ofExpr pattern d body).endPosition := mem_numbers_marked_iff
    rw [List.mem_range'_1, hnumbers]
    omega
  -- a state is held if a path leads to it, and paths lead to the state in front of a leaf
  -- that comes next
  have hholds : ∀ hp : p ∈ body.marked.numbers,
      (ofExpr pattern d body).holdsSource n (n.afterWord n.initial w) p = true ↔
        (ofExpr pattern d body).ComesAfter w p := by
    intro hp
    obtain ⟨x, -, hx, hlead⟩ := exists_sourceOf hn hshuffle hp
    unfold holdsSource
    rw [hx, ← comesNext_marked_iff, ← hlead]
    exact decide_eq_true_iff.trans Nfa.mem_afterWord_initial
  rw [positionsHeld, SortedSet.mem_ofList, List.mem_filter, hrange]
  exact ⟨fun h => (hholds h.1).mp h.2, fun h => ⟨h.mem_numbers, (hholds h.mem_numbers).mpr h⟩⟩

/-- The search for sets of positions goes through the positions that are held. -/
theorem PositionSearch.foldl_eq {a : Annotations} {f : FollowTable} {first : SortedSet Nat}
    {dfa : Dfa} (h : PositionSearch (ofExpr pattern d body) a f first dfa)
    (hn : Made body.marked 0 n hi) (hshuffle : (ofExpr pattern d body).hasShuffle = false)
    (w : List Char) : w.foldl (f.nextsOn (ofExpr pattern d body)) first =
      (ofExpr pattern d body).positionsHeld n (n.afterWord n.initial w) :=
  SortedSet.ext fun q => (h.after w q).trans (mem_positionsHeld_iff hn hshuffle).symm

/-- There are no more sets of positions than sets of states, as each is read off one of
these. -/
theorem PositionSearch.length_reachedSets_le {a : Annotations} {f : FollowTable}
    {first : SortedSet Nat} {dfa : Dfa}
    (h : PositionSearch (ofExpr pattern d body) a f first dfa)
    (hn : Made body.marked 0 n hi) (hshuffle : (ofExpr pattern d body).hasShuffle = false) :
    (f.reachedSets (ofExpr pattern d body) first).length ≤ n.subsets.length := by
  have hvalid := hn.fragment.valid
  have hread : f.reachedSets (ofExpr pattern d body) first ⊆
      n.subsets.map ((ofExpr pattern d body).positionsHeld n) := by
    intro set hset
    obtain ⟨w, rfl⟩ := Dfa.exists_word_of_mem_explore hset
    -- no set that is reached is empty, so the word begins one of the tree and some state
    -- is held
    have hbegins := h.foldl_ne_empty_iff.mp (h.ne_empty_of_mem_reachedSets hset)
    have hheld : n.afterWord n.initial w ≠ ∅ := (afterWord_ne_empty_iff hn).mpr hbegins
    have hmem : n.afterWord n.initial w ∈ n.subsets :=
      (Nfa.leadsBy_after hvalid).foldl_mem_explore
        (List.mem_of_getElem? Dfa.getElem?_zero_explore) hheld
    exact List.mem_map.mpr ⟨_, hmem, (h.foldl_eq hn hshuffle w).symm⟩
  have hnodup : (f.reachedSets (ofExpr pattern d body) first).Nodup := nodup_explore
  have hlength := hnodup.length_le_of_subset hread
  rwa [List.length_map] at hlength

end ParseTree

-- ---------------------------------------------------------------------------
-- Compiled patterns
-- ---------------------------------------------------------------------------

/-- The direct automaton of a tree goes in step with Thompson's automaton: letter by
letter, the states that are held in the one tell the state of the other. -/
structure ParseTree.InLockstep (t : ParseTree) (n : Nfa) (subsets direct : Dfa) : Prop where
  thompson_eq : t.thompson = .ok n
  ofNfa_eq : Dfa.ofNfa n = .ok subsets
  direct_eq : t.direct = .ok direct
  /-- Every position has a state in front of it. -/
  source : ∀ p, 1 ≤ p → p ≤ t.endPosition → ∃ x < n.stateCount, t.sourceOf n p = .ok (some x)
  /-- After a word, the direct automaton is in no state if nothing is held, and else in the one
  that is labelled by the positions whose states are held. -/
  current : ∀ w : List Char, ∃ held s?, n.heldAfter w = .ok held ∧
    direct.run direct.start w = .ok s? ∧ (s? = none ↔ held = ∅) ∧
    ∀ s, s? = some s → direct.find? (positionsLabel (t.positionsHeld n held)) = some s
  stateCount_le : direct.stateCount ≤ subsets.stateCount

/-- **The constructions go in step**: where nothing is interleaved, the direct automaton
of a pattern that compiles is always in the state of the positions that Thompson's
automaton holds. So it has no more states than the subset automaton. -/
theorem constructions_inLockstep {o : Options} {pattern : String} {t : ParseTree}
    (h : compile o pattern = .ok t) (hshuffle : t.hasShuffle = false) :
    ∃ n subsets direct, t.InLockstep n subsets direct := by
  obtain ⟨body, -, rfl⟩ := compile_eq_ok_iff.mp h
  obtain ⟨n, hi, hn, hmade⟩ := ParseTree.thompson_ofExpr pattern o.dialect body
  have hvalid := hmade.fragment.valid
  obtain ⟨s, hs⟩ := hmade.fragment.start
  obtain ⟨subsets, hsubsets, hsets, -⟩ := Dfa.exists_subsetSearch hvalid
    (Nfa.subsetsDistinct_of_names hvalid fun s hs => hmade.fragment.nameOf hs) hs
  obtain ⟨_, f, first, direct, hdirect, hsearch, haccepts⟩ :=
    ParseTree.exists_positionAutomaton hshuffle
  have hstops := hsearch.stopsInTime haccepts
  refine ⟨n, subsets, direct, {
    thompson_eq := hn
    ofNfa_eq := hsubsets
    direct_eq := ParseTree.direct_eq_positionAutomaton hshuffle hdirect
    source := fun p hpos hle => ?_
    current := fun w => ⟨_, _, Nfa.heldAfter_eq hvalid w,
      Dfa.run_eq hstops.valid hstops.valid.start_lt w, ?_, fun s hs => ?_⟩
    stateCount_le := ?_ }⟩
  · obtain ⟨x, hlt, hx, -⟩ :=
      ParseTree.exists_sourceOf hmade hshuffle (ParseTree.mem_numbers_marked_iff.mpr ⟨hpos, hle⟩)
    exact ⟨x, hlt, hx⟩
  · exact Decidable.not_iff_not.mp
      (hstops.afterWord_ne_none_iff.trans (ParseTree.afterWord_ne_empty_iff hmade).symm)
  · -- the state is looked up by the label that the search has given to the set
    have hplace := hsearch.search.afterWord_eq_some hsearch.proper ParseTree.leadsBy_nextsOn hs
    rw [StateTable.find?_eq_some_iff, hsearch.search.labels, List.getElem?_map,
      ← hsearch.foldl_eq hmade hshuffle w]
    exact congrArg (Option.map positionsLabel) hplace
  · rw [StateTable.stateCount_eq hsearch.search.labels, StateTable.stateCount_eq hsets.labels,
      List.length_map, List.length_map]
    exact hsearch.length_reachedSets_le hmade hshuffle

/-- With operands that are left out, and a repetition below a repetition. -/
theorem constructions_inLockstep_of_nested_repetition :
    ∃ t, compile {} "((|a)*b|c)*" = .ok t ∧ t.hasShuffle = false ∧
      ∃ n subsets direct, t.InLockstep n subsets direct := by
  let e : Expr Char :=
    .star (.union (.concat (.star (.union .epsilon (.leaf 'a'))) (.leaf 'b')) (.leaf 'c'))
  have htext : String.ofList e.pattern = "((|a)*b|c)*" := by cbv
  have hread : (read {} (String.ofList e.pattern)).result = .ok e :=
    read_pattern (by decide) (by decide)
  have h := compile_eq_ok_iff.mpr ⟨e, htext ▸ hread, rfl⟩
  have hshuffle : (ParseTree.ofExpr "((|a)*b|c)*" .plain e).hasShuffle = false := by decide
  exact ⟨_, h, hshuffle, constructions_inLockstep h hshuffle⟩

end PatternAutomata
