import PatternAutomata.Proofs.Automaton.Interleave
import PatternAutomata.Proofs.Automaton.OfElements

/-!
# Pattern automata — states that share a label

A product has a state for each pair, and a search one for each element, only if
their labels are distinct; elements of one label share a state. Nothing fails
then, and nothing is lost: all states, final states and transitions that an
element would have alone are there, and so all that an automaton accepts with
distinct labels it accepts with shared ones.

Each step of a construction only adds to what is there (`Grows`), and what a step
adds for its element stays. That is all that the loops need to know.

## Results

* `exists_addPair`, `exists_linkPairs`, `exists_addElement`, `exists_linkElements` — what a
  step adds.
* `exists_interleaveFrom` — a product is made, whatever the labels are (`Covers`).
* `Covers.accepting`      — it accepts all interleavings of accepted words.
* `exists_ofElements`     — the automaton of a search is made, whatever the labels are.
-/

namespace PatternAutomata

-- ---------------------------------------------------------------------------
-- Tables that grow
-- ---------------------------------------------------------------------------

namespace StateTable

variable {t t' t'' : StateTable} {label : String} {s : Nat} {final : Bool}

/-- Labels keep their states, and final states stay final. This is what every step does to
the table, whether or not its label is a new one. -/
structure Grows (t t' : StateTable) : Prop where
  labels : t.labels.toList <+: t'.labels.toList
  finals : ∀ s ∈ t.finals, s ∈ t'.finals
  start : t'.start = t.start

theorem Grows.refl (t : StateTable) : t.Grows t where
  labels := List.prefix_refl _
  finals _ hs := hs
  start := rfl

theorem Grows.trans (h : t.Grows t') (h' : t'.Grows t'') : t.Grows t'' where
  labels := h.labels.trans h'.labels
  finals s hs := h'.finals s (h.finals s hs)
  start := h'.start.trans h.start

theorem Grows.find?_eq (h : t.Grows t') (hs : t.find? label = some s) :
    t'.find? label = some s := by
  rw [find?_eq_some_iff] at hs ⊢
  obtain ⟨more, hmore⟩ := h.labels
  rwa [← hmore, List.getElem?_append_left (List.getElem?_eq_some_iff.mp hs).1]

theorem lt_of_find?_eq_some (h : t.find? label = some s) : s < t.stateCount := by
  have hlt := (List.getElem?_eq_some_iff.mp (find?_eq_some_iff.mp h)).1
  rwa [Labels.length_toList] at hlt

/-- There is a state of this label, and it is final if it has to be. -/
def HasState (t : StateTable) (label : String) (final : Bool) : Prop :=
  ∃ s, t.find? label = some s ∧ (final = true → s ∈ t.finals)

theorem HasState.grows (h : t.HasState label final) (hgrows : t.Grows t') :
    t'.HasState label final := by
  obtain ⟨s, hs, hfinal⟩ := h
  exact ⟨s, hgrows.find?_eq hs, fun hf => hgrows.finals s (hfinal hf)⟩

/-- A new label is one more state. -/
theorem add_of_find?_eq_none (h : t.find? label = none) :
    t.add label = (t.push label h, t.stateCount) := by
  unfold add
  split
  · rename_i s hs
    exact absurd (hs.symm.trans h) (Option.some_ne_none s)
  · rfl

/-- A label in use makes nothing. -/
theorem add_of_find?_eq_some (h : t.find? label = some s) : t.add label = (t, s) := by
  unfold add
  split
  · rename_i u hu
    rw [Option.some.inj (hu.symm.trans h)]
  · rename_i hs
    exact absurd (h.symm.trans hs) (Option.some_ne_none s)

theorem toList_labels_push {h : t.find? label = none} :
    (t.push label h).labels.toList = t.labels.toList ++ [label] := Labels.toList_push (h := h)

/-- In both cases the table grows: by a state of that label, or by nothing. What was there
is a part of what is there then. -/
theorem grows_add (t : StateTable) (label : String) : t.Grows (t.add label).1 := by
  cases h : t.find? label with
  | some s =>
    rw [add_of_find?_eq_some h]
    exact .refl t
  | none =>
    rw [add_of_find?_eq_none h]
    exact { labels := ⟨[label], toList_labels_push.symm⟩, finals := fun _ hs => hs, start := rfl }

/-- And the label is found then, at the state that was answered. So adding a label twice
answers the same state twice. -/
theorem find?_add (t : StateTable) (label : String) :
    (t.add label).1.find? label = some (t.add label).2 := by
  cases h : t.find? label with
  | some s =>
    rw [add_of_find?_eq_some h]
    exact h
  | none =>
    rw [add_of_find?_eq_none h, find?_eq_some_iff, toList_labels_push, stateCount,
      ← Labels.length_toList]
    exact List.getElem?_concat_length

end StateTable

-- ---------------------------------------------------------------------------
-- Products
-- ---------------------------------------------------------------------------

namespace Nfa

variable {l r n n' n'' : Nfa} {p q origin : Nat × Nat} {label : String}
  {s t x : Nat} {u v w : List Char}

/-- Edges stay too. In a nondeterministic automaton they never take the place of each
other. -/
structure Grows (n n' : Nfa) : Prop extends n.toStateTable.Grows n'.toStateTable where
  edge : ∀ s a t, n.Edge s a t → n'.Edge s a t

theorem Grows.refl (n : Nfa) : n.Grows n where
  toGrows := .refl n.toStateTable
  edge _ _ _ he := he

theorem Grows.trans (h : n.Grows n') (h' : n'.Grows n'') : n.Grows n'' where
  toGrows := h.toGrows.trans h'.toGrows
  edge s a t he := h'.edge s a t (h.edge s a t he)

/-- On its table, a nondeterministic automaton adds a state as every table does; besides,
the state gets a row. So facts about tables need no second proof. -/
theorem addState_eq_add : ((n.addState label).1.toStateTable, (n.addState label).2) =
    n.toStateTable.add label := by
  cases h : n.find? label with
  | some s =>
    rw [addState_of_find?_eq_some h]
    exact (StateTable.add_of_find?_eq_some h).symm
  | none =>
    rw [addState_of_find?_eq_none h]
    exact (StateTable.add_of_find?_eq_none h).symm

theorem find?_addState (n : Nfa) (label : String) :
    (n.addState label).1.find? label = some (n.addState label).2 := by
  have hadd := n.toStateTable.find?_add label
  rwa [← addState_eq_add] at hadd

/-- The automaton grows by a state that nothing leads out of: an empty row changes no
edge. -/
theorem grows_addState (n : Nfa) (label : String) : n.Grows (n.addState label).1 where
  toGrows := by
    have hadd := n.toStateTable.grows_add label
    rwa [← addState_eq_add] at hadd
  edge s a t he := by
    cases h : n.find? label with
    | some s =>
      rw [addState_of_find?_eq_some h]
      exact he
    | none =>
      rw [addState_of_find?_eq_none h]
      exact edge_withState.mpr he

theorem grows_insertFinal (n : Nfa) (s : Nat) : n.Grows (n.withFinals (n.finals.insert s)) where
  labels := List.prefix_refl _
  finals _ ht := SortedSet.mem_insert.mpr (.inr ht)
  start := rfl
  edge _ _ _ he := he

/-- More edges and ties. -/
theorem grows_extend {es : List (Nat × Symbol × Nat)} {ts : List Tie}
    (h : ∀ e ∈ es, e.1 < n.rows.size) : n.Grows (n.extend es ts) where
  labels := List.prefix_refl _
  finals _ hs := hs
  start := rfl
  edge _ _ _ he := (edge_extend h).mpr (.inl he)

/-- A pair becomes a state, whether it is a new one or not. If both members are final, so
is the state, whatever other pairs share it. -/
theorem exists_addPair (hn : n.Valid) (hp : HasPair l r p) :
    ∃ n', addPair l r n p = .ok n' ∧ n'.Valid ∧ n.Grows n' ∧
      n'.HasState (pairName l r p) (l.isFinal p.1 && r.isFinal p.2) := by
  have hfind := n.find?_addState (pairName l r p)
  have hvalid := hn.addState (pairName l r p)
  have hgrows := n.grows_addState (pairName l r p)
  unfold addPair
  rw [pairLabel_eq_ok hp, ok_bind]
  dsimp only
  split
  · -- a pair of final members makes its state final, even if that was there before
    have hlt := StateTable.lt_of_find?_eq_some hfind
    rw [addFinal_eq hlt]
    refine ⟨_, rfl, hvalid.addFinal (addFinal_eq hlt), hgrows.trans (grows_insertFinal _ _), ?_⟩
    exact ⟨_, hfind, fun _ => SortedSet.mem_insert.mpr (.inl rfl)⟩
  · rename_i hfinal
    exact ⟨_, rfl, hvalid, hgrows, _, hfind, fun h => absurd h hfinal⟩

/-- The move of a pair is an edge between the states of their labels. -/
def HasMove (l r : Nfa) (p : Nat × Nat) (move : PairMove) (n : Nfa) : Prop :=
  ∃ s t, n.find? (pairName l r p) = some s ∧ n.find? (pairName l r move.target) = some t ∧
    n.Edge s move.symbol t

theorem HasMove.grows {move : PairMove} (h : HasMove l r p move n) (hgrows : n.Grows n') :
    HasMove l r p move n' := by
  obtain ⟨s, t, hs, ht, he⟩ := h
  exact ⟨s, t, hgrows.find?_eq hs, hgrows.find?_eq ht, hgrows.edge s move.symbol t he⟩

/-- A move becomes an edge, whether the states of its pairs are new or not. Both ends are
added before the edge is, so it is between states that exist. -/
theorem exists_linkPairs {move : PairMove} (hn : n.Valid) (hm : HasPair l r move.target) :
    ∃ n', linkPairs l r (pairName l r p) n move = .ok n' ∧ n'.Valid ∧ n.Grows n' ∧
      HasMove l r p move n' := by
  let m := (n.addState (pairName l r p)).1
  let m' := (m.addState (pairName l r move.target)).1
  have hm' : m'.Valid := (hn.addState _).addState _
  have hmm' : m.Grows m' := m.grows_addState _
  have hsource : m'.find? (pairName l r p) = some _ := hmm'.find?_eq (n.find?_addState _)
  have htarget : m'.find? (pairName l r move.target) = some _ := m.find?_addState _
  have hs := hm'.size_rows.symm ▸ StateTable.lt_of_find?_eq_some hsource
  have ht := hm'.size_rows.symm ▸ StateTable.lt_of_find?_eq_some htarget
  have hadd := addTransition_eq (a := move.symbol) hs ht
  unfold linkPairs
  rw [pairLabel_eq_ok hm]
  dsimp only
  rw [ok_bind, hadd, ok_bind, recordTie_eq, extend_extend]
  -- what is left: validity, growth, and the edge itself
  refine ⟨_, rfl, ?_, ?_, _, _, hsource, htarget, ?_⟩
  · rw [← extend_extend, ← recordTie_eq]
    exact (hm'.addTransition hadd).recordTie _
  · exact ((n.grows_addState _).trans hmm').trans (grows_extend (by simpa using hs))
  · exact (edge_extend (by simpa using hs)).mpr (.inr (by simp))

/-- All moves of a pair become edges, whether or not the states at their two ends have to
be shared with other pairs. What one step adds stays in the next ones. -/
theorem exists_addPairMoves (hl : l.Valid) (hr : r.Valid) (hn : n.Valid) (hp : HasPair l r p)
    (hmoves : ∀ move ∈ pairMoves l r p, HasPair l r move.target) :
    ∃ n', addPairMoves l r n p = .ok n' ∧ n'.Valid ∧ n.Grows n' ∧
      ∀ move ∈ pairMoves l r p, HasMove l r p move n' := by
  rw [addPairMoves_eq hl hr hp]
  exact exists_foldlM_grows (P := Valid) (R := Grows) (Q := HasMove l r p)
    Grows.refl (fun _ _ _ => Grows.trans) (fun _ _ _ h hx => hx.grows h)
    (fun move hmove _ hm => exists_linkPairs hm (hmoves move hmove)) hn

/-- The automaton has all states, final states and edges of a product. It may have more: a
state that several pairs share has the edges of all of them. -/
structure Covers (l r : Nfa) (origin : Nat × Nat) (n : Nfa) : Prop where
  valid : n.Valid
  start : ∃ s, n.start = some s ∧ n.find? (pairName l r origin) = some s
  hasState : ∀ p ∈ reachedPairs l r origin,
    n.HasState (pairName l r p) (l.isFinal p.1 && r.isFinal p.2)
  hasMove : ∀ p ∈ reachedPairs l r origin, ∀ move ∈ pairMoves l r p, HasMove l r p move n

/-- A product is made, whatever the labels of its operands are. Both loops are folds that
only add, so after the last step all that any step added is there. -/
theorem exists_interleaveFrom (hl : l.Valid) (hr : r.Valid) (horigin : HasPair l r origin) :
    ∃ n, interleaveFrom l r origin = .ok n ∧ Covers l r origin n := by
  have hpair : ∀ p ∈ reachedPairs l r origin, HasPair l r p := fun p hp =>
    hasPair_of_mem_reachedPairs hl hr horigin hp
  have hmoves : ∀ p ∈ reachedPairs l r origin, ∀ move ∈ pairMoves l r p,
      HasPair l r move.target := fun p hp move hmove =>
    ((exists_mem_pairMoves_iff hl hr (hpair p hp)).mp ⟨move, hmove, rfl, rfl⟩).hasPair hl hr
      (hpair p hp)
  -- first the states of all pairs
  obtain ⟨states, hstates, hvalid, -, hall⟩ := exists_foldlM_grows (P := Valid) (R := Grows)
    (Q := fun p n => n.HasState (pairName l r p) (l.isFinal p.1 && r.isFinal p.2))
    Grows.refl (fun _ _ _ => Grows.trans) (fun _ _ _ h hx => hx.grows h.toGrows)
    (fun p hp _ hn => exists_addPair hn (hpair p hp)) (valid_empty (l.alphabet ∪ r.alphabet))
  have hmem : origin ∈ reachedPairs l r origin := List.mem_of_getElem? getElem?_zero_reachedPairs
  obtain ⟨s, hs, -⟩ := hall origin hmem
  have hlt := StateTable.lt_of_find?_eq_some hs
  -- then the edges, on top of them
  obtain ⟨n, hn, hvalid', hgrows, hmoved⟩ := exists_foldlM_grows (P := Valid) (R := Grows)
    (Q := fun p n => ∀ move ∈ pairMoves l r p, HasMove l r p move n)
    Grows.refl (fun _ _ _ => Grows.trans) (fun _ _ _ h hx move hmove => (hx move hmove).grows h)
    (fun p hp _ hn => exists_addPairMoves hl hr hn (hpair p hp) (hmoves p hp))
    (hvalid.withStart hlt)
  refine ⟨n, ?_, {
    valid := hvalid'
    start := ⟨s, hgrows.start, hgrows.find?_eq hs⟩
    hasState := fun p hp =>
      StateTable.HasState.grows (t := (states.withStart s).toStateTable) (hall p hp) hgrows.toGrows
    hasMove := hmoved }⟩
  rw [interleaveFrom, hstates, ok_bind, pairLabel_eq_ok horigin, ok_bind,
    addState_of_find?_eq_some hs, setStart_eq hlt, ok_bind]
  exact hn

namespace Covers

/-- A state stands for all pairs of its label, and has the edges of each of them. So a
path of pairs is a path of states, though not the other way round. -/
theorem follows (hl : l.Valid) (hr : r.Valid) (horigin : HasPair l r origin)
    (h : Covers l r origin n) :
    Follows l r n fun x p => p ∈ reachedPairs l r origin ∧ n.find? (pairName l r p) = some x := by
  rintro x p a q ⟨hp, hx⟩ he
  have hpair := hasPair_of_mem_reachedPairs hl hr horigin hp
  have hq := mem_reachedPairs_of_edge hl hr horigin hp he
  obtain ⟨move, hmove, rfl, rfl⟩ := (exists_mem_pairMoves_iff hl hr hpair).mpr he
  obtain ⟨x', y, hx', hy, hedge⟩ := h.hasMove p hp move hmove
  obtain rfl := Option.some.inj (hx.symm.trans hx')
  exact ⟨y, ⟨hq, hy⟩, hedge⟩

/-- All interleavings of accepted words are accepted. This is the half of the product's
language that does not depend on labels. -/
theorem accepting (hl : l.Valid) (hr : r.Valid) (h : Covers l r (s, t) n)
    (hs : l.start = some s) (ht : r.start = some t) (hu : l.Accepting u) (hv : r.Accepting v)
    (hw : Interleaving u v w) : n.Accepting w := by
  have horigin : HasPair l r (s, t) := ⟨hl.start_lt s hs, hr.start_lt t ht⟩
  obtain ⟨s', hs', x, hx, hu⟩ := hu
  obtain ⟨t', ht', y, hy, hv⟩ := hv
  obtain rfl := Option.some.inj (hs.symm.trans hs')
  obtain rfl := Option.some.inj (ht.symm.trans ht')
  obtain ⟨i, hi, hfind⟩ := h.start
  obtain ⟨z, ⟨hmem, hz⟩, hp⟩ := (h.follows hl hr horigin).exists_path (q := (x, y)) hw hu hv
    ⟨List.mem_of_getElem? getElem?_zero_reachedPairs, hfind⟩
  obtain ⟨z', hz', hfinal⟩ := h.hasState (x, y) hmem
  obtain rfl := Option.some.inj (hz.symm.trans hz')
  exact ⟨i, hi, z, hfinal (by simp [StateTable.isFinal, hx, hy]), hp⟩

/-- A final pair that shares its label with the first one makes the empty word accepted.
It is the state that is final, and with it every pair that it stands for. -/
theorem accepting_nil (h : Covers l r origin n) (hp : p ∈ reachedPairs l r origin)
    (hfinal : p.1 ∈ l.finals ∧ p.2 ∈ r.finals) (hname : pairName l r p = pairName l r origin) :
    n.Accepting [] := by
  obtain ⟨i, hi, hfind⟩ := h.start
  obtain ⟨j, hj, hmem⟩ := h.hasState p hp
  rw [hname] at hj
  obtain rfl := Option.some.inj (hfind.symm.trans hj)
  exact ⟨i, hi, i, hmem (by simpa [StateTable.isFinal] using hfinal), .refl i⟩

end Covers

end Nfa

-- ---------------------------------------------------------------------------
-- Searches
-- ---------------------------------------------------------------------------

namespace Dfa

variable {α : Type} {naming : StateNaming α} {name : α → String} {moves : α → List (Char × α)}
  {alphabet : SortedSet Char} {xs : List α} {d d' d'' : Dfa} {x : α} {label : String}

/-- Transitions need not stay: one on the same letter takes their place. So of a
deterministic automaton only the table is followed. -/
def Grows (d d' : Dfa) : Prop := d.toStateTable.Grows d'.toStateTable

theorem Grows.refl (d : Dfa) : d.Grows d := StateTable.Grows.refl d.toStateTable

theorem Grows.trans (h : d.Grows d') (h' : d'.Grows d'') : d.Grows d'' :=
  StateTable.Grows.trans h h'

/-- On its table, a deterministic automaton adds a state as every table does. -/
theorem addState_eq_add : ((d.addState label).1.toStateTable, (d.addState label).2) =
    d.toStateTable.add label := by
  cases h : d.find? label with
  | some s =>
    rw [addState_of_find?_eq_some h]
    exact (StateTable.add_of_find?_eq_some h).symm
  | none =>
    rw [addState_of_find?_eq_none h]
    exact (StateTable.add_of_find?_eq_none h).symm

theorem find?_addState (d : Dfa) (label : String) :
    (d.addState label).1.find? label = some (d.addState label).2 := by
  have hadd := d.toStateTable.find?_add label
  rwa [← addState_eq_add] at hadd

theorem grows_addState (d : Dfa) (label : String) : d.Grows (d.addState label).1 := by
  have hadd := d.toStateTable.grows_add label
  rwa [← addState_eq_add] at hadd

/-- An element becomes a state, whether it is a new one or not. If it is final, so is the
state. -/
theorem exists_addElement (hd : d.Valid) (hlabel : naming.label x = .ok (name x)) :
    ∃ d', addElement naming d x = .ok d' ∧ d'.Valid ∧ d.Grows d' ∧
      d'.HasState (name x) (naming.isFinal x) := by
  have hfind := d.find?_addState (name x)
  have hvalid := hd.addState (name x)
  have hgrows := d.grows_addState (name x)
  unfold addElement
  rw [hlabel, ok_bind]
  dsimp only
  split
  · -- a final element makes its state final, even if that was there before
    have hlt := StateTable.lt_of_find?_eq_some hfind
    rw [addFinal_eq hlt]
    refine ⟨_, rfl, hvalid.addFinal (addFinal_eq hlt), hgrows.trans ?_, _, hfind, fun _ =>
      SortedSet.mem_insert.mpr (.inl rfl)⟩
    exact {
      labels := List.prefix_refl _
      finals := fun _ ht => SortedSet.mem_insert.mpr (.inr ht)
      start := rfl }
  · rename_i hfinal
    exact ⟨_, rfl, hvalid, hgrows, _, hfind, fun h => absurd h hfinal⟩

/-- A move becomes a transition, whether the states of its elements are new or not. It may
take the place of another one, of an element that shares the state. -/
theorem exists_linkElements {move : Char × α} (source : String) (hd : d.Valid)
    (hlabel : naming.label move.2 = .ok (name move.2)) :
    ∃ d', linkElements naming source d move = .ok d' ∧ d'.Valid ∧ d.Grows d' := by
  let e := (d.addState source).1
  let e' := (e.addState (name move.2)).1
  have he' : e'.Valid := (hd.addState _).addState _
  have hee' : e.Grows e' := e.grows_addState _
  -- both states are there now, whoever has added them
  have hsource : e'.find? source = some _ := StateTable.Grows.find?_eq hee' (d.find?_addState _)
  have htarget : e'.find? (name move.2) = some _ := e.find?_addState _
  have hs := he'.size_rows.symm ▸ StateTable.lt_of_find?_eq_some hsource
  have ht := he'.size_rows.symm ▸ StateTable.lt_of_find?_eq_some htarget
  have hadd := addTransition_eq (c := move.1) hs ht
  unfold linkElements
  rw [hlabel]
  dsimp only
  rw [ok_bind, hadd]
  refine ⟨_, rfl, he'.addTransition hadd, ((d.grows_addState _).trans hee').trans ?_⟩
  exact { labels := List.prefix_refl _, finals := fun _ ht => ht, start := rfl }

/-- All moves of an element become transitions, and no step fails. Where elements share a
state, a later move takes the place of an earlier one on the same letter, so nothing is
said of earlier transitions. -/
theorem exists_addMoves (hd : d.Valid) (hlabel : naming.label x = .ok (name x))
    (hmoves : ∀ move ∈ moves x, naming.label move.2 = .ok (name move.2)) :
    ∃ d', addMoves naming d (x, moves x) = .ok d' ∧ d'.Valid ∧ d.Grows d' := by
  unfold addMoves
  rw [hlabel, ok_bind]
  have hstep : ∀ done move rest e, moves x = done ++ move :: rest → e.Valid ∧ d.Grows e →
      ∃ e', linkElements naming (name x) e move = .ok e' ∧ e'.Valid ∧ d.Grows e' := by
    rintro done move rest e hmove ⟨he, hgrows⟩
    obtain ⟨e', hrun, he', hgrows'⟩ :=
      exists_linkElements (name x) he (hmoves move (by simp [hmove]))
    exact ⟨e', hrun, he', hgrows.trans hgrows'⟩
  exact exists_foldlM_eq_ok (P := fun _ e => e.Valid ∧ d.Grows e) hstep ⟨hd, .refl d⟩

/-- The automaton of a search is made, whatever the labels of its elements are. The state
of the first element is the start, and all final elements have final states. -/
theorem exists_ofElements (hlabel : ∀ y ∈ x :: xs, naming.label y = .ok (name y))
    (hmoves : ∀ y ∈ x :: xs, ∀ move ∈ moves y, naming.label move.2 = .ok (name move.2)) :
    ∃ d, ofElements alphabet naming ((x :: xs).map fun y => (y, moves y)) = .ok d ∧ d.Valid ∧
      (∃ s, d.start = some s ∧ d.find? (name x) = some s) ∧
      ∀ y ∈ x :: xs, d.HasState (name y) (naming.isFinal y) := by
  -- first the states of all elements
  obtain ⟨states, hstates, hvalid, -, hall⟩ := exists_foldlM_grows (P := Valid) (R := Grows)
    (Q := fun y d => d.HasState (name y) (naming.isFinal y)) (l := x :: xs)
    Grows.refl (fun _ _ _ => Grows.trans) (fun _ _ _ h hy => hy.grows h)
    (fun y hy _ hd => exists_addElement hd (hlabel y hy)) (valid_empty alphabet)
  obtain ⟨s, hs, -⟩ := hall x List.mem_cons_self
  have hlt := StateTable.lt_of_find?_eq_some hs
  let started := states.withStart s
  -- then the transitions, which leave the table as it is
  have hstep : ∀ done y rest d, x :: xs = done ++ y :: rest → d.Valid ∧ started.Grows d →
      ∃ d', addMoves naming d (y, moves y) = .ok d' ∧ d'.Valid ∧ started.Grows d' := by
    rintro done y rest d hxs ⟨hd, hgrows⟩
    have hy : y ∈ x :: xs := by simp [hxs]
    obtain ⟨d', hrun, hd', hgrows'⟩ := exists_addMoves hd (hlabel y hy) (hmoves y hy)
    exact ⟨d', hrun, hd', hgrows.trans hgrows'⟩
  obtain ⟨d, hd, hvalid', hgrows⟩ := exists_foldlM_eq_ok
    (P := fun _ d => d.Valid ∧ started.Grows d) hstep ⟨hvalid.withStart hlt, .refl started⟩
  refine ⟨d, ?_, hvalid', ⟨s, hgrows.start, hgrows.find?_eq hs⟩, fun y hy =>
    StateTable.HasState.grows (t := started.toStateTable) (hall y hy) hgrows⟩
  unfold ofElements
  rw [List.foldlM_map, hstates, ok_bind, List.map_cons]
  dsimp only
  rw [hlabel x List.mem_cons_self, ok_bind, addState_of_find?_eq_some hs, setStart_eq hlt, ok_bind,
    ← List.map_cons (f := fun y => (y, moves y)), List.foldlM_map]
  exact hd

end Dfa

end PatternAutomata
