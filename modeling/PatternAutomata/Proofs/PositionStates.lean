import PatternAutomata.Proofs.Parser.RoundTrip
import PatternAutomata.Proofs.Useful

/-!
# Pattern automata — what the states of the direct automaton stand for

Where nothing is interleaved, a state of the direct automaton is a set of
positions, which its label lists: those that can come next after any of the words
that lead to the state. Nothing else is remembered of these words, and nothing
less, so two words lead to one state exactly if the same positions can come after
both.

## Results

* `direct_states_are_sets` — the states of the direct automaton of what compiles.
-/

namespace PatternAutomata

/-- The states of the direct automaton are the sets of positions that can come next. The
start is the set of the first ones, every state is reached, and two words lead to one
state if nothing tells them apart as far as positions go. -/
structure ParseTree.StatesAreSets (t : ParseTree) (direct : Dfa) : Prop where
  direct_eq : t.direct = .ok direct
  /-- The start is the set of the positions that can be first. -/
  start : ∃ a first s, Annotations.ofTree t = .ok a ∧ a.first t.root = .ok first ∧
    direct.start = some s ∧ direct.label s = .ok (positionsLabel first)
  /-- After a word, the automaton is in no state if nothing can come next, and else in the one
  of what can. This is final if the end marker can. -/
  current : ∀ w, ∃ (set : SortedSet Nat) (s? : Option Nat),
    (∀ q, q ∈ set ↔ t.ComesAfter w q) ∧ direct.run direct.start w = .ok s? ∧
      (s? = none ↔ set = ∅) ∧ ∀ s, s? = some s →
        direct.label s = .ok (positionsLabel set) ∧
          (direct.isFinal s = true ↔ t.endPosition ∈ set)
  reached : ∀ s < direct.stateCount, ∃ w, direct.run direct.start w = .ok (some s)
  distinct : ∀ u v x y, direct.run direct.start u = .ok (some x) →
    direct.run direct.start v = .ok (some y) →
      (x = y ↔ ∀ q, t.ComesAfter u q ↔ t.ComesAfter v q)

/-- **States are sets of positions**: where nothing is interleaved, the direct automaton
of a pattern that compiles is made. After a word it is in the state of the positions that
can come next, and there are no other states. -/
theorem direct_states_are_sets {o : Options} {pattern : String} {t : ParseTree}
    (h : compile o pattern = .ok t) (hshuffle : t.hasShuffle = false) :
    ∃ direct, t.StatesAreSets direct := by
  obtain ⟨body, -, rfl⟩ := compile_eq_ok_iff.mp h
  obtain ⟨a, f, first, direct, hdirect, hpositions, -⟩ :=
    ParseTree.exists_positionAutomaton hshuffle
  have hsearch := hpositions.search
  have hproper := hpositions.proper
  have hleads : Dfa.LeadsBy (ParseTree.ofExpr pattern o.dialect body).symbols
      (f.nextsOn (.ofExpr pattern o.dialect body)) := ParseTree.leadsBy_nextsOn
  have hne : ∀ set ∈ f.reachedSets (.ofExpr pattern o.dialect body) first, set ≠ ∅ := fun _ =>
    hpositions.ne_empty_of_mem_reachedSets
  have hrun := Dfa.run_eq hsearch.valid hsearch.valid.start_lt
  have hstate : ∀ {w s}, direct.run direct.start w = .ok (some s) →
      direct.afterWord direct.start w = some s := fun hs => Except.ok.inj ((hrun _).symm.trans hs)
  refine ⟨direct, {
    direct_eq := ParseTree.direct_eq_positionAutomaton hshuffle hdirect
    start := ?_
    current := fun w => ?_
    reached := fun s hs => ?_
    distinct := fun u v x y hx hy => ?_ }⟩
  · exact ⟨a, first, 0, hpositions.annotations, hpositions.first, hsearch.start,
      hsearch.label_eq Dfa.getElem?_zero_explore⟩
  · refine ⟨_, _, hpositions.after w, hrun w, hsearch.afterWord_eq_none_iff hproper hleads hne,
      fun s hs => ?_⟩
    have hplace := hsearch.afterWord_eq_some hproper hleads hs
    exact ⟨hsearch.label_eq hplace,
      (hsearch.isFinal_iff hplace).trans decide_eq_true_iff⟩
  · obtain ⟨w, hw⟩ := hsearch.exists_afterWord hproper hleads hne hs
    exact ⟨w, (hrun w).trans (congrArg Except.ok hw)⟩
  · -- a state is the place of its set among those found, where no set is twice
    rw [hsearch.afterWord_eq_iff hproper hleads (hstate hx) (hstate hy)]
    simp only [← hpositions.after]
    exact ⟨fun hsame _ => by rw [hsame], SortedSet.ext⟩

/-- With a letter that several positions read, of which some can come next together. -/
theorem direct_states_are_sets_of_repeated_letter :
    ∃ t, compile {} "(a|b)*a(a|b)" = .ok t ∧ t.hasShuffle = false ∧
      ∃ direct, t.StatesAreSets direct := by
  let either : Expr Char := .union (.leaf 'a') (.leaf 'b')
  let e : Expr Char := .concat (.concat (.star either) (.leaf 'a')) either
  have htext : String.ofList e.pattern = "(a|b)*a(a|b)" := by cbv
  have h : compile {} "(a|b)*a(a|b)" = .ok (.ofExpr _ .plain e) :=
    compile_eq_ok_of_pattern htext (by decide) (by decide)
  have hshuffle : (ParseTree.ofExpr "(a|b)*a(a|b)" .plain e).hasShuffle = false := by decide
  exact ⟨_, h, hshuffle, direct_states_are_sets h hshuffle⟩

end PatternAutomata
