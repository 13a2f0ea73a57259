import PatternAutomata.Automaton.Store
import PatternAutomata.Proofs.Automaton.AnyLabels
import PatternAutomata.Proofs.Automaton.Equivalence
import PatternAutomata.Proofs.Compiled
import PatternAutomata.Proofs.Thompson.Valid

/-!
# Pattern automata — what holds after any run

Labels, index, rows, start, final states and alphabet are separate parts, which
a dozen operations change one by one. However a program mixes the operations, the
parts of all its automata fit together after each step, so that nothing that the
automata are asked afterwards refers to a state that does not exist.

## Results

* `Store.Valid.exec`   — no operation leaves an automaton whose parts do not fit together.
* `Store.run_coherent` — so after any run of operations none is left, and all questions have
  answers.
-/

namespace PatternAutomata

-- ---------------------------------------------------------------------------
-- One automaton
-- ---------------------------------------------------------------------------

/-- Labels tell the states apart and are found again, and the start and the final states
exist. The index of labels is not mentioned: that it agrees with the list is what
`find_iff` says. -/
structure StateTable.Coherent (t : StateTable) : Prop where
  labels_nodup : t.labels.toList.Nodup
  find_iff : ∀ label s, t.find? label = some s ↔ t.label s = .ok label
  exists_label : ∀ s < t.stateCount, ∃ label, t.label s = .ok label
  start_lt : ∀ s, t.start = some s → s < t.stateCount
  finals_lt : ∀ s ∈ t.finals, s < t.stateCount

/-- Every state has its row, and transitions lead to states that exist by letters of the
alphabet. A row holds no empty set of targets, which would show as a symbol that leads
nowhere. -/
structure Nfa.Coherent (n : Nfa) : Prop extends n.toStateTable.Coherent where
  size_rows : n.rows.size = n.stateCount
  target_lt : ∀ s a t, (s, a, t) ∈ n.transitions → t < n.stateCount
  letter_mem : ∀ s c t, (s, .char c, t) ∈ n.transitions → c ∈ n.alphabet
  targets_ne : ∀ row ∈ n.rows, ∀ entry ∈ row.entries, entry.2 ≠ ∅

/-- The same of a deterministic automaton, whose rows hold targets and not sets. So there
is nothing to say about empty sets of targets. -/
structure Dfa.Coherent (d : Dfa) : Prop extends d.toStateTable.Coherent where
  size_rows : d.rows.size = d.stateCount
  target_lt : ∀ s c t, (s, c, t) ∈ d.transitions → t < d.stateCount
  letter_mem : ∀ s c t, (s, c, t) ∈ d.transitions → c ∈ d.alphabet

/-- Do all members of the set exist? -/
def Nfa.Holds (n : Nfa) (set : SortedSet Nat) : Prop := ∀ s ∈ set, s < n.stateCount

/-- Whatever the automaton is asked, it answers, and sets of states lead to sets of
states. So a simulation never comes to a state that is none. -/
structure Nfa.Answers (n : Nfa) : Prop where
  accepts : ∀ word, ∃ b, n.accepts word = .ok b
  initialSet : ∃ set, n.initialSet = .ok set ∧ n.Holds set
  epsilonClosure : ∀ set, n.Holds set → ∃ closed, n.epsilonClosure set = .ok closed ∧ n.Holds closed
  step : ∀ set c, n.Holds set → ∃ next, n.step set c = .ok next ∧ n.Holds next
  determinize : ∃ d, Dfa.ofNfa n = .ok d

/-- Validity speaks of bounds only. The rest is what a list of labels carries with it. -/
theorem StateTable.Valid.coherent {t : StateTable} (ht : t.Valid) : t.Coherent where
  labels_nodup := t.labels.nodup_toList
  find_iff _ _ := Labels.find?_eq_some_iff.trans label_eq_ok_iff.symm
  exists_label _ hs := ⟨_, label_eq_ok hs⟩
  start_lt := ht.start_lt
  finals_lt := ht.finals_lt

/-- Edges are the listed transitions, so that bounds on edges are bounds on what is
listed. -/
theorem Nfa.Valid.coherent {n : Nfa} (hn : n.Valid) : n.Coherent where
  toCoherent := hn.toValid.coherent
  size_rows := hn.size_rows
  target_lt s a t h := hn.edge_lt s a t (mem_transitions_iff.mp h)
  letter_mem s c t h := hn.edge_alphabet s c t (mem_transitions_iff.mp h)
  targets_ne row hrow entry hentry := by
    obtain ⟨s, hs, rfl⟩ := Array.mem_iff_getElem.mp hrow
    have hfind := SortedMap.find?_eq_some_iff.mpr hentry
    rintro hempty
    refine hn.targets_ne s entry.1 ?_
    rw [Array.getD_eq_getD_getElem?, Array.getElem?_eq_getElem hs, Option.getD_some, hfind, hempty]

theorem Dfa.Valid.coherent {d : Dfa} (hd : d.Valid) : d.Coherent where
  toCoherent := hd.toValid.coherent
  size_rows := hd.size_rows
  target_lt s c t h := hd.next_lt s c t (mem_transitions_iff.mp h)
  letter_mem s c t h := hd.next_alphabet s c t (mem_transitions_iff.mp h)

/-- No question fails on an automaton whose parts fit together. If there is no start, the
subsets are not asked for, and the automaton made from them is the empty one. -/
theorem Nfa.Valid.answers {n : Nfa} (hn : n.Valid) : n.Answers where
  accepts word := ⟨_, accepts_eq hn word⟩
  initialSet := ⟨_, initialSet_eq hn, fun _ hs => initial_lt hn hs⟩
  epsilonClosure set hset := by
    have hclosed : n.Holds (n.closure set) := fun t ht => closure_lt hn hset ht
    exact ⟨_, epsilonClosure_eq hn hset, hclosed⟩
  step set c hset := ⟨_, step_eq hn hset c, fun _ hs => after_lt hn hs⟩
  determinize := by
    cases hstart : n.start with
    | none => exact ⟨_, by rw [Dfa.ofNfa, hstart]⟩
    | some s =>
      obtain ⟨d, hd, -⟩ := Dfa.exists_ofNfa hn hstart
      exact ⟨d, hd⟩

-- ---------------------------------------------------------------------------
-- Operations
-- ---------------------------------------------------------------------------

/-- An edit is one of the operations on the automaton, each with its own lemma. An edit
that is refused changes nothing, so nothing is said of it. -/
theorem Nfa.Valid.edit {n n' : Nfa} {e : Edit Symbol} (hn : n.Valid) (h : n.edit e = .ok n') :
    n'.Valid := by
  cases e with
  | addState label => exact Except.ok.inj h ▸ hn.addState label
  | setStart s => exact hn.setStart h
  | addFinal s => exact hn.addFinal h
  | removeFinal s => exact Except.ok.inj h ▸ hn.removeFinal s
  | addSymbol c => exact Except.ok.inj h ▸ hn.addSymbol c
  | addTransition source a target => exact hn.addTransition h
  | deleteTransition source a target =>
    obtain ⟨_, hdelete, h⟩ := bind_eq_ok.mp h
    exact Except.ok.inj h ▸ hn.deleteTransition hdelete

/-- An edit is one of the operations on the automaton, each with its own lemma, as
before. -/
theorem Dfa.Valid.edit {d d' : Dfa} {e : Edit Char} (hd : d.Valid) (h : d.edit e = .ok d') :
    d'.Valid := by
  cases e with
  | addState label => exact Except.ok.inj h ▸ hd.addState label
  | setStart s => exact hd.setStart h
  | addFinal s => exact hd.addFinal h
  | removeFinal s => exact Except.ok.inj h ▸ hd.removeFinal s
  | addSymbol c => exact Except.ok.inj h ▸ hd.addSymbol c
  | addTransition source c target => exact hd.addTransition h
  | deleteTransition source c target =>
    obtain ⟨_, hdelete, h⟩ := bind_eq_ok.mp h
    exact Except.ok.inj h ▸ hd.deleteTransition hdelete

namespace Store

variable {store store' : Store} {n : Nfa} {d : Dfa} {i : Nat}

/-- The parts of all automata fit together. This is the invariant of a run: it is all that
is needed of the automata for the next operation to keep it. -/
structure Valid (store : Store) : Prop where
  nfas : ∀ n ∈ store.nfas, n.Valid
  dfas : ∀ d ∈ store.dfas, d.Valid

theorem valid_empty : ({} : Store).Valid where
  nfas n hn := absurd hn (Array.not_mem_empty n)
  dfas d hd := absurd hd (Array.not_mem_empty d)

/-- What is found under a number is one of the automata. -/
theorem mem_of_nfa_eq_ok (h : store.nfa i = .ok n) : n ∈ store.nfas := by
  unfold Store.nfa at h
  cases hi : store.nfas[i]? with
  | none => rw [hi] at h; exact nomatch h
  | some n' =>
    rw [hi] at h
    exact Except.ok.inj h ▸ Array.mem_of_getElem? hi

theorem Valid.nfa (hstore : store.Valid) (h : store.nfa i = .ok n) : n.Valid :=
  hstore.nfas n (mem_of_nfa_eq_ok h)

/-- What is found under a number is one of the automata. -/
theorem mem_of_dfa_eq_ok (h : store.dfa i = .ok d) : d ∈ store.dfas := by
  unfold Store.dfa at h
  cases hi : store.dfas[i]? with
  | none => rw [hi] at h; exact nomatch h
  | some d' =>
    rw [hi] at h
    exact Except.ok.inj h ▸ Array.mem_of_getElem? hi

theorem Valid.dfa (hstore : store.Valid) (h : store.dfa i = .ok d) : d.Valid :=
  hstore.dfas d (mem_of_dfa_eq_ok h)

theorem Valid.pushNfa (hstore : store.Valid) (hn : n.Valid) : (store.pushNfa n).Valid where
  nfas m hm := (Array.mem_push.mp hm).elim (hstore.nfas m) fun h => h ▸ hn
  dfas := hstore.dfas

theorem Valid.pushDfa (hstore : store.Valid) (hd : d.Valid) : (store.pushDfa d).Valid where
  nfas := hstore.nfas
  dfas e he := (Array.mem_push.mp he).elim (hstore.dfas e) fun h => h ▸ hd

/-- An automaton may take the place of another one, or of none, if it is valid itself. -/
theorem Valid.putNfa (hstore : store.Valid) (i : Nat) (hn : n.Valid) :
    (store.putNfa i n).Valid where
  nfas m hm := (Array.mem_or_eq_of_mem_setIfInBounds hm).elim (hstore.nfas m) fun h => h ▸ hn
  dfas := hstore.dfas

/-- An automaton may take the place of another one, or of none, if it is valid itself. -/
theorem Valid.putDfa (hstore : store.Valid) (i : Nat) (hd : d.Valid) :
    (store.putDfa i d).Valid where
  nfas := hstore.nfas
  dfas e he := (Array.mem_or_eq_of_mem_setIfInBounds he).elim (hstore.dfas e) fun h => h ▸ hd

/-- No operation leaves an automaton whose parts do not fit together. Edits keep an
automaton valid. The constructions need no premise on what they are made from: their
result is valid whenever there is one. -/
theorem Valid.exec {operation : Operation} (hstore : store.Valid)
    (h : store.exec operation = .ok store') : store'.Valid := by
  cases operation with
  | newNfa => exact Except.ok.inj h ▸ hstore.pushNfa (Nfa.valid_empty ∅)
  | newDfa => exact Except.ok.inj h ▸ hstore.pushDfa (Dfa.valid_empty ∅)
  | copyNfa i =>
    obtain ⟨n, hn, h⟩ := bind_eq_ok.mp h
    exact Except.ok.inj h ▸ hstore.pushNfa (hstore.nfa hn)
  | copyDfa i =>
    obtain ⟨d, hd, h⟩ := bind_eq_ok.mp h
    exact Except.ok.inj h ▸ hstore.pushDfa (hstore.dfa hd)
  | editNfa i edit =>
    obtain ⟨n, hn, h⟩ := bind_eq_ok.mp h
    obtain ⟨n', hedit, h⟩ := bind_eq_ok.mp h
    exact Except.ok.inj h ▸ hstore.putNfa i ((hstore.nfa hn).edit hedit)
  | editDfa i edit =>
    obtain ⟨d, hd, h⟩ := bind_eq_ok.mp h
    obtain ⟨d', hedit, h⟩ := bind_eq_ok.mp h
    exact Except.ok.inj h ▸ hstore.putDfa i ((hstore.dfa hd).edit hedit)
  | recordTie i tie =>
    obtain ⟨n, hn, h⟩ := bind_eq_ok.mp h
    exact Except.ok.inj h ▸ hstore.putNfa i ((hstore.nfa hn).recordTie tie)
  | absorb i other =>
    obtain ⟨n, hn, h⟩ := bind_eq_ok.mp h
    obtain ⟨m, hm, h⟩ := bind_eq_ok.mp h
    obtain ⟨⟨n', offset⟩, habsorb, h⟩ := bind_eq_ok.mp h
    exact Except.ok.inj h ▸ hstore.putNfa i ((hstore.nfa hn).absorb (hstore.nfa hm) habsorb)
  -- from here on results are valid by themselves
  | interleave left right =>
    obtain ⟨l, -, h⟩ := bind_eq_ok.mp h
    obtain ⟨r, -, h⟩ := bind_eq_ok.mp h
    obtain ⟨n, hn, h⟩ := bind_eq_ok.mp h
    exact Except.ok.inj h ▸ hstore.pushNfa (Nfa.interleave_valid hn)
  | determinize i =>
    obtain ⟨n, -, h⟩ := bind_eq_ok.mp h
    obtain ⟨d, hd, h⟩ := bind_eq_ok.mp h
    exact Except.ok.inj h ▸ hstore.pushDfa (Dfa.ofNfa_valid hd)
  | thompson t =>
    obtain ⟨n, hn, h⟩ := bind_eq_ok.mp h
    exact Except.ok.inj h ▸ hstore.pushNfa (ParseTree.thompson_valid hn)
  | direct t =>
    obtain ⟨d, hd, h⟩ := bind_eq_ok.mp h
    exact Except.ok.inj h ▸ hstore.pushDfa (ParseTree.direct_valid hd)

theorem run_nil (store : Store) : store.run [] = .ok store := rfl

theorem run_cons {operation : Operation} {operations : List Operation} {last : Store}
    (h : store.exec operation = .ok store') (hrest : store'.run operations = .ok last) :
    store.run (operation :: operations) = .ok last := by
  rw [run, List.foldlM_cons, h, ok_bind]
  exact hrest

/-- Two runs in turn are one. -/
theorem run_append {operations more : List Operation} {last : Store}
    (h : store.run operations = .ok store') (hmore : store'.run more = .ok last) :
    store.run (operations ++ more) = .ok last := by
  rw [run, List.foldlM_append]
  exact bind_eq_ok.mpr ⟨store', h, hmore⟩

/-- A run is a fold that stops at the first fault, so its invariant is that of one step. -/
theorem Valid.run {operations : List Operation} (hstore : store.Valid)
    (h : store.run operations = .ok store') : store'.Valid :=
  foldlM_invariant (fun _ _ _ hstore h => hstore.exec h) hstore h

/-- All automata are coherent, and whatever they are asked, alone or in pairs, has an
answer. -/
structure Coherent (store : Store) : Prop where
  nfas : ∀ n ∈ store.nfas, n.Coherent ∧ n.Answers
  dfas : ∀ d ∈ store.dfas, d.Coherent ∧ ∀ word, ∃ b, d.accepts word = .ok b
  equivalent : ∀ a ∈ store.dfas, ∀ b ∈ store.dfas, ∃ same, Dfa.equivalent a b = .ok same
  interleave : ∀ l ∈ store.nfas, ∀ r ∈ store.nfas, ∀ s t, l.start = some s → r.start = some t →
    ∃ n, l.interleave r = .ok n

/-- **Operations keep automata coherent**: after any operations that succeed, in any
order, every automaton has one label and one row per state, its start, its final states
and all targets are states, and whatever it is asked it answers without a fault. -/
theorem run_coherent {operations : List Operation} (h : ({} : Store).run operations = .ok store) :
    store.Coherent := by
  have hstore : store.Valid := valid_empty.run h
  exact {
    nfas := fun n hn => ⟨(hstore.nfas n hn).coherent, (hstore.nfas n hn).answers⟩
    dfas := fun d hd => ⟨(hstore.dfas d hd).coherent, fun word =>
      ⟨_, Dfa.accepts_eq (hstore.dfas d hd) word⟩⟩
    equivalent := fun a ha b hb => by
      obtain ⟨same, hsame, -⟩ := Dfa.equivalent_eq_ok (hstore.dfas a ha) (hstore.dfas b hb)
      exact ⟨same, hsame⟩
    interleave := fun l hl r hr s t hs ht => by
      -- two automata are interleaved from the pair of their starts, which is a pair of
      -- states
      have horigin : Nfa.HasPair l r (s, t) :=
        ⟨(hstore.nfas l hl).start_lt s hs, (hstore.nfas r hr).start_lt t ht⟩
      obtain ⟨n, hn, -⟩ := Nfa.exists_interleaveFrom (hstore.nfas l hl) (hstore.nfas r hr) horigin
      exact ⟨n, by rw [Nfa.interleave, hs, ht]; exact hn⟩ }

/-- An automaton is built by hand, and a copy of it absorbs another one and loses its transition.
Then come the automata of a pattern. -/
theorem run_coherent_of_edits_and_pattern :
    ∃ t store, compile { dialect := .parallel } "(a&b)*c" = .ok t ∧
      ({} : Store).run ([.newNfa, .editNfa 0 (.addState "p"), .editNfa 0 (.addState "q"),
        .editNfa 0 (.setStart 0), .editNfa 0 (.addFinal 1),
        .editNfa 0 (.addTransition 0 (.char 'a') 1), .newNfa, .editNfa 1 (.addState "r"),
        .copyNfa 0, .absorb 2 1, .editNfa 2 (.deleteTransition 0 (.char 'a') 1)] ++
        [.thompson t, .determinize 3, .direct t]) = .ok store ∧ store.Coherent := by
  have hscan : firstError? { dialect := .parallel } "(a&b)*c" = none := by decide
  obtain ⟨body, ht⟩ := exists_compile_eq_ok hscan
  obtain ⟨n, hn, hvalid, hnames, haccepting⟩ := ParseTree.exists_thompson "(a&b)*c" .parallel body
  obtain ⟨subsets, hsubsets, hsame⟩ := ParseTree.exists_ofNfa hvalid hnames
  obtain ⟨d, hd, -⟩ := ParseTree.exists_direct hn hvalid haccepting hsubsets hsame
  -- The edits are run. The constructions of the pattern are not: that they succeed is
  -- known for every pattern.
  have hedits : (({} : Store).run [.newNfa, .editNfa 0 (.addState "p"),
      .editNfa 0 (.addState "q"), .editNfa 0 (.setStart 0), .editNfa 0 (.addFinal 1),
      .editNfa 0 (.addTransition 0 (.char 'a') 1), .newNfa, .editNfa 1 (.addState "r"),
      .copyNfa 0, .absorb 2 1, .editNfa 2 (.deleteTransition 0 (.char 'a') 1)]).toOption.map
        (·.nfas.size) = some 3 := by decide +kernel
  obtain ⟨edited, hedited, hsize⟩ := Option.map_eq_some_iff.mp hedits
  have hplace : (edited.pushNfa n).nfa 3 = .ok n := by
    simp [Store.nfa, Store.pushNfa, ← hsize]
  have hthompson : edited.exec (.thompson (ParseTree.ofExpr "(a&b)*c" .parallel body)) =
      .ok (edited.pushNfa n) := by
    rw [exec, hn, ok_bind]
    rfl
  have hdeterminize : (edited.pushNfa n).exec (.determinize 3) =
      .ok ((edited.pushNfa n).pushDfa subsets) := by
    rw [exec, hplace, ok_bind, hsubsets]
    rfl
  have hdirect : ((edited.pushNfa n).pushDfa subsets).exec
      (.direct (ParseTree.ofExpr "(a&b)*c" .parallel body)) =
        .ok (((edited.pushNfa n).pushDfa subsets).pushDfa d) := by
    rw [exec, hd]
    rfl
  have hrun := run_append (eq_ok_of_toOption hedited)
    (run_cons hthompson (run_cons hdeterminize (run_cons hdirect (run_nil _))))
  exact ⟨_, _, ht, hrun, run_coherent hrun⟩

end Store

end PatternAutomata
