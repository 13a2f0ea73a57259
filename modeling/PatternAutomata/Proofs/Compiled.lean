import PatternAutomata.Proofs.Direct
import PatternAutomata.Proofs.Parser.Scan
import PatternAutomata.Proofs.Thompson.Fragments

/-!
# Pattern automata — the automata of compiled patterns

What compiles has three automata: the one of Thompson's construction, the subset
automaton of that, and the direct one. All are made without a fault, and all of
them accept the words of the parse tree.

## Results

* `thompson_accepts_iff`  — Thompson's construction accepts the words of the tree.
* `constructions_agree`   — so do the subset automaton of it and the direct automaton.
-/

namespace PatternAutomata

namespace ParseTree

variable {pattern : String} {d : Dialect} {body : Expr Char}

/-- Thompson's automaton of a pattern is made, and its accepting paths read the words of
the tree. It is valid and its states have names, which is what the other constructions ask
for. -/
theorem exists_thompson (pattern : String) (d : Dialect) (body : Expr Char) :
    ∃ n, (ofExpr pattern d body).thompson = .ok n ∧ n.Valid ∧
      (∀ s < n.stateCount, StateName (fun _ => True) (n.nameOf s)) ∧
      ∀ w, n.Accepting w ↔ (ofExpr pattern d body).Language w := by
  obtain ⟨n, hi, hn, hmade⟩ := thompson_ofExpr pattern d body
  have hfragment := hmade.fragment
  refine ⟨n, hn, hfragment.valid, fun s hs => hfragment.nameOf hs, fun w => ?_⟩
  rw [hfragment.accepting, language_root_iff]

/-- Its subset automaton is made, since the names of states tell the sets apart. -/
theorem exists_ofNfa {n : Nfa} (hn : n.Valid)
    (hnames : ∀ s < n.stateCount, StateName (fun _ => True) (n.nameOf s)) :
    ∃ dfa, Dfa.ofNfa n = .ok dfa ∧ ∀ word, dfa.accepts word = n.accepts word :=
  Dfa.ofNfa_eq_ok hn (Nfa.subsetsDistinct_of_names hn hnames)

/-- With interleavings the direct automaton is the subset automaton of Thompson's. The
fallback keeps a log as it goes, which makes no difference to the automaton. -/
theorem direct_eq_ofNfa {t : ParseTree} {n : Nfa} {dfa : Dfa} (hshuffle : t.hasShuffle = true)
    (hn : t.thompson = .ok n) (hdfa : Dfa.ofNfa n = .ok dfa) : t.direct = .ok dfa := by
  obtain ⟨x, hx, hfst⟩ : ∃ x, t.thompsonLogged = .ok x ∧ x.1 = n := by
    cases h : t.thompsonLogged with
    | error f =>
      rw [thompson, h] at hn
      exact nomatch hn
    | ok x =>
      rw [thompson, h] at hn
      exact ⟨x, rfl, Except.ok.inj hn⟩
  unfold direct
  rw [directLogged, if_pos hshuffle, hx, ok_bind]
  dsimp only
  rw [hfst, hdfa]
  rfl

theorem direct_eq_positionAutomaton {t : ParseTree} {dfa : Dfa} (hshuffle : t.hasShuffle = false)
    (hdfa : t.positionAutomaton = .ok dfa) : t.direct = .ok dfa := by
  unfold direct
  rw [directLogged, hshuffle, hdfa]
  rfl

/-- The direct automaton of a pattern is made, and accepts the words of the tree. With
interleavings this is known from the subset automaton, else from the search over
positions. -/
theorem exists_direct {n : Nfa} {dfa : Dfa} (hn : (ofExpr pattern d body).thompson = .ok n)
    (hvalid : n.Valid) (haccepting : ∀ w, n.Accepting w ↔ (ofExpr pattern d body).Language w)
    (hdfa : Dfa.ofNfa n = .ok dfa) (hsame : ∀ word, dfa.accepts word = n.accepts word) :
    ∃ direct, (ofExpr pattern d body).direct = .ok direct ∧ ∀ word, ∃ b,
      direct.accepts word = .ok b ∧ (b = true ↔ (ofExpr pattern d body).Language word.toList) := by
  cases hshuffle : (ofExpr pattern d body).hasShuffle with
  | true =>
    refine ⟨dfa, direct_eq_ofNfa hshuffle hn hdfa, fun word => ?_⟩
    obtain ⟨b, hb, hiff⟩ := n.accepts_eq_ok hvalid word
    exact ⟨b, (hsame word).trans hb, hiff.trans (haccepting _)⟩
  | false =>
    obtain ⟨_, _, _, direct, hdirect, -, haccepts⟩ := exists_positionAutomaton hshuffle
    exact ⟨direct, direct_eq_positionAutomaton hshuffle hdirect, haccepts⟩

end ParseTree

-- ---------------------------------------------------------------------------
-- Compiled patterns
-- ---------------------------------------------------------------------------

/-- **Thompson's construction is right**: the automaton of a pattern that compiles is
made, every word gets an answer, and the answer is whether it is a word of the tree. -/
theorem thompson_accepts_iff {o : Options} {pattern : String} {t : ParseTree}
    (h : compile o pattern = .ok t) :
    ∃ n, t.thompson = .ok n ∧ ∀ word : String, ∃ b, n.accepts word = .ok b ∧
      (b = true ↔ t.Language word.toList) := by
  obtain ⟨body, -, rfl⟩ := compile_eq_ok_iff.mp h
  obtain ⟨n, hn, hvalid, -, haccepting⟩ := ParseTree.exists_thompson pattern o.dialect body
  refine ⟨n, hn, fun word => ?_⟩
  obtain ⟨b, hb, hiff⟩ := Nfa.accepts_eq_ok hvalid word
  exact ⟨b, hb, hiff.trans (haccepting _)⟩

/-- An interleaving below a repetition. -/
theorem thompson_accepts_iff_repeated_interleaving :
    ∃ t, compile { dialect := .parallel } "(a&b)*c" = .ok t ∧
      ∃ n, t.thompson = .ok n ∧ ∀ word : String, ∃ b, n.accepts word = .ok b ∧
        (b = true ↔ t.Language word.toList) := by
  have hscan : firstError? { dialect := .parallel } "(a&b)*c" = none := by decide
  obtain ⟨body, h⟩ := exists_compile_eq_ok hscan
  exact ⟨_, h, thompson_accepts_iff h⟩

/-- **The constructions agree**: the direct automaton of a pattern that compiles accepts
exactly the words of the tree, as Thompson's automaton does, and the subset automaton of
that. All three are made and answer for every word. -/
theorem constructions_agree {o : Options} {pattern : String} {t : ParseTree}
    (h : compile o pattern = .ok t) :
    ∃ n subsets direct, t.thompson = .ok n ∧ Dfa.ofNfa n = .ok subsets ∧ t.direct = .ok direct ∧
      ∀ word : String, ∃ b, direct.accepts word = .ok b ∧ n.accepts word = .ok b ∧
        subsets.accepts word = .ok b ∧ (b = true ↔ t.Language word.toList) := by
  obtain ⟨body, -, rfl⟩ := compile_eq_ok_iff.mp h
  obtain ⟨n, hn, hvalid, hnames, haccepting⟩ :=
    ParseTree.exists_thompson pattern o.dialect body
  obtain ⟨subsets, hsubsets, hsame⟩ := ParseTree.exists_ofNfa hvalid hnames
  obtain ⟨direct, hdirect, haccepts⟩ :=
    ParseTree.exists_direct hn hvalid haccepting hsubsets hsame
  refine ⟨n, subsets, direct, hn, hsubsets, hdirect, fun word => ?_⟩
  obtain ⟨b, hb, hiff⟩ := haccepts word
  obtain ⟨b', hb', hiff'⟩ := Nfa.accepts_eq_ok hvalid word
  -- both answers say whether the word is one of the tree
  obtain rfl : b' = b := Bool.eq_iff_iff.mpr (hiff'.trans ((haccepting _).trans hiff.symm))
  exact ⟨b', hb, hb', (hsame word).trans hb', hiff⟩

/-- With an interleaving, where the direct construction falls back on the subset
automaton, and without. -/
theorem constructions_agree_on_two_patterns :
    (∃ t, compile { dialect := .parallel } "(a&b)*c" = .ok t ∧
      ∃ n subsets direct, t.thompson = .ok n ∧ Dfa.ofNfa n = .ok subsets ∧
        t.direct = .ok direct ∧
        ∀ word : String, ∃ b, direct.accepts word = .ok b ∧ n.accepts word = .ok b ∧
          subsets.accepts word = .ok b ∧ (b = true ↔ t.Language word.toList)) ∧
    ∃ t, compile {} "(a|b)*c" = .ok t ∧
      ∃ n subsets direct, t.thompson = .ok n ∧ Dfa.ofNfa n = .ok subsets ∧
        t.direct = .ok direct ∧
        ∀ word : String, ∃ b, direct.accepts word = .ok b ∧ n.accepts word = .ok b ∧
          subsets.accepts word = .ok b ∧ (b = true ↔ t.Language word.toList) := by
  have hscan : firstError? { dialect := .parallel } "(a&b)*c" = none := by decide
  have hscan' : firstError? {} "(a|b)*c" = none := by decide
  obtain ⟨body, h⟩ := exists_compile_eq_ok hscan
  obtain ⟨body', h'⟩ := exists_compile_eq_ok hscan'
  exact ⟨⟨_, h, constructions_agree h⟩, _, h', constructions_agree h'⟩

end PatternAutomata
