import PatternAutomata.Proofs.Automaton.Trim
import PatternAutomata.Proofs.Compiled
import PatternAutomata.Proofs.Thompson.Trim

/-!
# Pattern automata — no dead ends

An automaton of a compiled pattern is in some state exactly as long as what was
read can still become a word of the pattern. For Thompson's automaton and its
subset automaton this holds because all states of the former are useful, and for
the position automaton because whatever position can come next, the sequence it
is from goes on to the end marker.

So no automaton has a state that is not reached or that leads nowhere, and since
every literal is in some word, every symbol is on some transition.

## Results

* `exists_comesAfter_iff`    — a position can come next as long as a word begins so.
* `constructions_noDeadEnds` — the automata of what compiles stop in time, and have nothing
  useless.
-/

namespace PatternAutomata

namespace ParseTree

variable {pattern : String} {d : Dialect} {body : Expr Char} {c : Char} {w : List Char} {q : Nat}

-- ---------------------------------------------------------------------------
-- Literals
-- ---------------------------------------------------------------------------

theorem mem_symbols_iff : c ∈ (ofExpr pattern d body).symbols ↔ c ∈ body.leaves := by
  rw [symbols_ofExpr, List.mem_eraseDups]

theorem char_mem_nodes_iff {e : Expr (Letter × Nat)} {base p : Nat} :
    Node.char c p ∈ e.nodes base ↔ (Letter.char c, p) ∈ e.leaves := by
  rw [Expr.mem_leaves_iff base]
  simp only [Node.leaf?_eq_char_iff, exists_eq_right]

theorem char_mem_letters_marked_iff :
    Letter.char c ∈ body.marked.leaves.map (·.1) ↔ c ∈ body.leaves := by
  rw [letters_marked]
  simp

/-- The symbols are the characters of the leaves. -/
theorem mem_symbols_iff_exists_node : c ∈ (ofExpr pattern d body).symbols ↔
    ∃ p, Node.char c p ∈ (ofExpr pattern d body).nodes := by
  simp only [nodes_ofExpr, char_mem_nodes_iff]
  rw [mem_symbols_iff, ← char_mem_letters_marked_iff]
  simp

/-- Every symbol is read in some word. No expression is empty here, so what is around a
leaf can always be completed. -/
theorem exists_language_of_mem_symbols (h : c ∈ (ofExpr pattern d body).symbols) :
    ∃ u v, (ofExpr pattern d body).Language (u ++ c :: v) := by
  obtain ⟨u, v, hword⟩ := Expr.exists_matches_of_mem_leaves (mem_symbols_iff.mp h)
  exact ⟨u, v, language_ofExpr.mpr hword⟩

-- ---------------------------------------------------------------------------
-- Positions that lead on
-- ---------------------------------------------------------------------------

/-- Leaves read what their positions spell, since the table of positions has for each of
them what the leaf reads. -/
theorem flatMap_reads_of_spells {as : List (Letter × Nat)}
    (has : ∀ a ∈ as, a ∈ body.marked.leaves)
    (h : (ofExpr pattern d body).Spells (as.map (·.2)) w) : as.flatMap (·.1.reads) = w := by
  have hletters := (spells_map_iff has).mp h
  calc as.flatMap (·.1.reads)
      = (as.map (·.1)).flatMap Letter.reads := (List.flatMap_map ..).symm
    _ = (w.map Letter.char).flatMap Letter.reads := by rw [hletters]
    _ = w := by simp [List.flatMap_map, Letter.reads]

/-- A position can come next as long as some word begins so. From a position that can come
next the sequence goes on to the end marker, and what it spells is a word. -/
theorem exists_comesAfter_iff : (∃ q, (ofExpr pattern d body).ComesAfter w q) ↔
    Begins (ofExpr pattern d body).Language w := by
  constructor
  · rintro ⟨q, u, v, hpasses, hu⟩
    obtain ⟨as, has, hpositions⟩ :=
      Expr.matches_iff_exists_leaves.mp (passes_root_iff.mp hpasses)
    obtain ⟨before, rest, rfl, rfl, -⟩ := List.map_eq_append_iff.mp hpositions
    have hword := has.flatMap (·.1.reads)
    rw [List.flatMap_append, flatMap_reads_of_spells
      (fun a ha => has.mem_leaves a (List.mem_append_left _ ha)) hu] at hword
    exact ⟨_, language_root_iff.mpr hword⟩
  · rintro ⟨v, hv⟩
    obtain ⟨u, y, hpasses, hu⟩ := comesAfter_end_iff.mpr hv
    obtain ⟨before, rest, rfl, hbefore, -⟩ := spells_append_iff.mp hu
    -- the first position behind those that spell `w`
    cases rest with
    | nil =>
      rw [List.append_nil] at hpasses
      exact ⟨_, before, y, hpasses, hbefore⟩
    | cons q rest =>
      rw [List.append_assoc, List.cons_append] at hpasses
      exact ⟨q, before, _, hpasses, hbefore⟩

-- ---------------------------------------------------------------------------
-- The deterministic automata
-- ---------------------------------------------------------------------------

/-- Thompson's automaton holds a state as long as some word begins so, because all its
states are useful. -/
theorem afterWord_ne_empty_iff {n : Nfa} {lo hi : Nat} (hn : Workshop.Made body.marked lo n hi) :
    n.afterWord n.initial w ≠ ∅ ↔ Begins (ofExpr pattern d body).Language w := by
  rw [hn.useful.afterWord_ne_empty_iff hn.fragment.valid]
  exact exists_congr fun v => (hn.fragment.accepting _).trans language_root_iff.symm

open Dfa in
/-- The subset automaton of Thompson's automaton stops in time. It holds a set as long as
that automaton holds any state, and the names of states keep its sets apart. -/
theorem exists_stopsInTime_subsets (pattern : String) (d : Dialect) {n : Nfa} {lo hi : Nat}
    (hn : Workshop.Made body.marked lo n hi) :
    ∃ subsets, ofNfa n = .ok subsets ∧ subsets.StopsInTime (ofExpr pattern d body).Language ∧
      ∀ c, c ∈ subsets.alphabet ↔ c ∈ n.alphabet := by
  have hfragment := hn.fragment
  have hvalid := hfragment.valid
  have haccepting : ∀ w, n.Accepting w ↔ (ofExpr pattern d body).Language w := fun w =>
    (hfragment.accepting w).trans language_root_iff.symm
  have hdistinct := Nfa.subsetsDistinct_of_names hvalid fun s hs => hfragment.nameOf hs
  obtain ⟨s, hs⟩ := hfragment.start
  obtain ⟨subsets, hsubsets, hsearch, hsame⟩ := exists_subsetSearch hvalid hdistinct hs
  refine ⟨subsets, hsubsets, ?_, hsearch.mem_alphabet⟩
  -- what a search for sets asks for: labels, steps, no empty set, and the language
  refine hsearch.stopsInTime (proper_subsets hvalid hdistinct) (Nfa.leadsBy_after hvalid)
    (fun set hset => Nfa.ne_empty_of_mem_subsets hs hset) (fun word => ?_)
    (fun w hw => (afterWord_ne_empty_iff hn).mp hw) fun c hc => ?_
  · obtain ⟨b, hb, hiff⟩ := Nfa.accepts_eq_ok hvalid word
    exact ⟨b, (hsame word).trans hb, hiff.trans (haccepting _)⟩
  · exact exists_language_of_mem_symbols
      (mem_symbols_iff.mpr (char_mem_letters_marked_iff.mp (hn.mem_alphabet_iff.mp hc)))

section Positions

variable {a : Annotations} {f : FollowTable} {first : SortedSet Nat} {dfa : Dfa}
  (h : PositionSearch (ofExpr pattern d body) a f first dfa)

include h

/-- The set of positions that can come next is empty as soon as no word begins so. -/
theorem PositionSearch.foldl_ne_empty_iff : w.foldl (f.nextsOn (ofExpr pattern d body)) first ≠ ∅ ↔
    Begins (ofExpr pattern d body).Language w := by
  rw [SortedSet.ne_empty_iff, ← exists_comesAfter_iff]
  simp only [h.after]

/-- So no state of the position automaton stands for the empty set. -/
theorem PositionSearch.ne_empty_of_mem_reachedSets {set : SortedSet Nat}
    (hset : set ∈ f.reachedSets (ofExpr pattern d body) first) : set ≠ ∅ := by
  obtain ⟨v, hv⟩ := body.exists_matches fun c => [c]
  exact Dfa.ne_empty_of_mem_explore
    ((h.foldl_ne_empty_iff (w := [])).mpr ⟨v, language_ofExpr.mpr hv⟩) hset

/-- The position automaton stops in time. -/
theorem PositionSearch.stopsInTime (haccepts : ∀ word : String, ∃ b, dfa.accepts word = .ok b ∧
      (b = true ↔ (ofExpr pattern d body).Language word.toList)) :
    dfa.StopsInTime (ofExpr pattern d body).Language :=
  h.search.stopsInTime h.proper leadsBy_nextsOn (fun _ => h.ne_empty_of_mem_reachedSets) haccepts
    (fun _ => h.foldl_ne_empty_iff.mp)
    fun _ hc => exists_language_of_mem_symbols (SortedSet.mem_ofList.mp hc)

end Positions

/-- The direct automaton stops in time, whichever of the two constructions has made it.
With interleavings it is the subset automaton, of which this was shown before. -/
theorem exists_stopsInTime_direct {n : Nfa} {subsets : Dfa}
    (hn : (ofExpr pattern d body).thompson = .ok n) (hsubsets : Dfa.ofNfa n = .ok subsets)
    (hstops : subsets.StopsInTime (ofExpr pattern d body).Language)
    (halphabet : ∀ c, c ∈ subsets.alphabet ↔ c ∈ (ofExpr pattern d body).symbols) :
    ∃ direct, (ofExpr pattern d body).direct = .ok direct ∧
      direct.StopsInTime (ofExpr pattern d body).Language ∧
      ∀ c, c ∈ direct.alphabet ↔ c ∈ (ofExpr pattern d body).symbols := by
  cases hshuffle : (ofExpr pattern d body).hasShuffle with
  | true => exact ⟨subsets, direct_eq_ofNfa hshuffle hn hsubsets, hstops, halphabet⟩
  | false =>
    obtain ⟨_, _, _, direct, hdirect, hsearch, haccepts⟩ := exists_positionAutomaton hshuffle
    exact ⟨direct, direct_eq_positionAutomaton hshuffle hdirect, hsearch.stopsInTime haccepts,
      fun c => (hsearch.search.mem_alphabet c).trans SortedSet.mem_ofList⟩

end ParseTree

-- ---------------------------------------------------------------------------
-- Compiled patterns
-- ---------------------------------------------------------------------------

/-- The three automata of a tree are made, and nothing in them is useless: no state, no
letter, and no moment at which they are in a state though no word begins with what was
read. -/
structure ParseTree.NoDeadEnds (t : ParseTree) (n : Nfa) (subsets direct : Dfa) : Prop where
  thompson_eq : t.thompson = .ok n
  ofNfa_eq : Dfa.ofNfa n = .ok subsets
  direct_eq : t.direct = .ok direct
  /-- Thompson's automaton holds a state as long as a word of the tree begins so. -/
  held : ∀ w : List Char, ∃ set, n.heldAfter w = .ok set ∧ (set ≠ ∅ ↔ Begins t.Language w)
  /-- The direct automaton is in a state as long. -/
  current : ∀ w : List Char, ∃ s?, direct.run direct.start w = .ok s? ∧
    (s? ≠ none ↔ Begins t.Language w)
  thompson_trim : n.Trim
  subsets_trim : subsets.Trim
  direct_trim : direct.Trim
  thompson_alphabet : n.alphabet = .ofList t.symbols
  subsets_alphabet : subsets.alphabet = .ofList t.symbols
  direct_alphabet : direct.alphabet = .ofList t.symbols
  mem_symbols : ∀ c, c ∈ t.symbols ↔ ∃ p, .char c p ∈ t.nodes

/-- **No dead ends**: the automata of a pattern that compiles stop as soon as no word of
the tree begins with what was read, all their states are useful, their alphabets are the
literals of the tree, and every symbol is on a transition. -/
theorem constructions_noDeadEnds {o : Options} {pattern : String} {t : ParseTree}
    (h : compile o pattern = .ok t) : ∃ n subsets direct, t.NoDeadEnds n subsets direct := by
  obtain ⟨body, -, rfl⟩ := compile_eq_ok_iff.mp h
  obtain ⟨n, hi, hn, hmade⟩ := ParseTree.thompson_ofExpr pattern o.dialect body
  have hvalid := hmade.fragment.valid
  have hsymbols : ∀ c, c ∈ n.alphabet ↔ c ∈ (ParseTree.ofExpr pattern o.dialect body).symbols := by
    intro c
    rw [hmade.mem_alphabet_iff, ParseTree.char_mem_letters_marked_iff, ParseTree.mem_symbols_iff]
  obtain ⟨subsets, hsubsets, hstops, halphabet⟩ :=
    ParseTree.exists_stopsInTime_subsets pattern o.dialect hmade
  -- all three alphabets are compared with the symbols of the tree
  have hletters := fun c => (halphabet c).trans (hsymbols c)
  obtain ⟨direct, hdirect, hstops', hletters'⟩ :=
    ParseTree.exists_stopsInTime_direct hn hsubsets hstops hletters
  refine ⟨n, subsets, direct, {
    thompson_eq := hn
    ofNfa_eq := hsubsets
    direct_eq := hdirect
    held := fun w => ⟨_, Nfa.heldAfter_eq hvalid w, ParseTree.afterWord_ne_empty_iff hmade⟩
    current := fun w => ⟨_, Dfa.run_eq hstops'.valid hstops'.valid.start_lt w,
      hstops'.afterWord_ne_none_iff⟩
    thompson_trim := hmade.trim
    subsets_trim := hstops.trim
    direct_trim := hstops'.trim
    thompson_alphabet := SortedSet.ext fun c => (hsymbols c).trans SortedSet.mem_ofList.symm
    subsets_alphabet := SortedSet.ext fun c => (hletters c).trans SortedSet.mem_ofList.symm
    direct_alphabet := SortedSet.ext fun c => (hletters' c).trans SortedSet.mem_ofList.symm
    mem_symbols := fun c => ParseTree.mem_symbols_iff_exists_node }⟩

/-- With interleavings below a repetition, and with operands that are left out. -/
theorem constructions_noDeadEnds_nested_and_plain :
    (∃ t, compile { dialect := .parallel } "((a&b)*&c|d)&a" = .ok t ∧
      ∃ n subsets direct, t.NoDeadEnds n subsets direct) ∧
    ∃ t, compile {} "(|a)*b|" = .ok t ∧ ∃ n subsets direct, t.NoDeadEnds n subsets direct := by
  have hscan : firstError? { dialect := .parallel } "((a&b)*&c|d)&a" = none := by decide
  have hscan' : firstError? {} "(|a)*b|" = none := by decide
  obtain ⟨body, h⟩ := exists_compile_eq_ok hscan
  obtain ⟨body', h'⟩ := exists_compile_eq_ok hscan'
  exact ⟨⟨_, h, constructions_noDeadEnds h⟩, _, h', constructions_noDeadEnds h'⟩

end PatternAutomata
