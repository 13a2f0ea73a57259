import PatternAutomata.Proofs.Automaton.Equivalence
import PatternAutomata.Proofs.Automaton.SharedLabels
import PatternAutomata.Proofs.Worklist

/-!
# Pattern automata — the stages of the constructions

Each construction is one loop over a queue, and also the same work in two stages: all
states first, and then the start and all transitions. A state may be made earlier than
it is, since a transition only changes the row of its source, and a new state only
puts a label and a row behind the others. If the label is in use, nothing is put there.

Two elements may share a state. So what is known of an element is only that its label
has a state, and that labels keep their states (`StateTable.HasAdded`).

## Results

* `Dfa.link_withElement`, `Nfa.extend_withElement` — a state may be added before a transition.
* `Dfa.searchStages`, `Nfa.productStages`, `Dfa.comparisonStages` — the stages of each loop.
* `Dfa.ofElements_eq_of_makes`, `Nfa.interleaveFrom_eq_of_makes` — what they make is the automaton
  of the search, and the product.
-/

namespace PatternAutomata

variable {α γ : Type}

-- ---------------------------------------------------------------------------
-- One more state
-- ---------------------------------------------------------------------------

/-- A row may be changed before another is put behind it. -/
theorem push_setIfInBounds {rows : Array γ} {row last : γ} {s : Nat} (hs : s < rows.size) :
    (rows.setIfInBounds s row).push last = (rows.push last).setIfInBounds s row := by
  refine Array.toList_inj.mp ?_
  rw [Array.toList_push, Array.toList_setIfInBounds, Array.toList_setIfInBounds,
    Array.toList_push, List.set_append_left _ _ (by simpa using hs)]

/-- All states keep their labels, `label` has the state `s`, and no other label is new.
This holds whether `label` was in use or not, so it says nothing of the state being a new
one. -/
structure StateTable.HasAdded (t t' : StateTable) (label : String) (s : Nat) : Prop where
  find?_eq : t'.find? label = some s
  find?_of_some : ∀ {other u}, t.find? other = some u → t'.find? other = some u
  stateCount_le : t'.stateCount ≤ t.stateCount + 1

/-- What a table has added is read off its labels, so final states and the start may
differ. -/
theorem StateTable.hasAdded_of_labels_eq {t t' : StateTable} {label : String}
    (h : t'.labels = (t.add label).1.labels) : t.HasAdded t' label (t.add label).2 where
  find?_eq := by
    rw [find?, h]
    exact t.find?_add label
  find?_of_some hu := by
    rw [find?, h]
    exact (t.grows_add label).find?_eq hu
  stateCount_le := by
    rw [stateCount, h]
    show (t.add label).1.stateCount ≤ _
    -- a label in use adds nothing, and a new one adds a single state
    cases hfind : t.find? label with
    | some s =>
      rw [add_of_find?_eq_some hfind]
      exact Nat.le_succ _
    | none =>
      rw [add_of_find?_eq_none hfind, stateCount, ← Labels.length_toList, toList_labels_push,
        List.length_append, Labels.length_toList]
      rfl

-- ---------------------------------------------------------------------------
-- Searches
-- ---------------------------------------------------------------------------

namespace Dfa

variable {d : Dfa} {naming : StateNaming α} {name : α → String} {moves : α → List (Char × α)}
  {alphabet : SortedSet Char} {finite : FiniteRange fun x => (moves x).map (·.2)}
  {label : String} {final : Bool} {x : α} {s t : Nat} {c : Char}

/-- The automaton with a state of this label, final if it has to be. This is what a step
that adds an element leads to, in both forms of the construction. -/
def withElement (d : Dfa) (label : String) (final : Bool) : Dfa :=
  let (d, s) := d.addState label
  if final then d.withFinals (d.finals.insert s) else d

/-- In stages, an element is added as one step: its label gets a state, which is made
final or not. What the label is was asked before, so the step itself does not fail. -/
theorem addElement_eq (hlabel : naming.label x = .ok (name x)) :
    addElement naming d x = .ok (d.withElement (name x) (naming.isFinal x)) := by
  have hlt := StateTable.lt_of_find?_eq_some (d.find?_addState (name x))
  unfold addElement withElement
  rw [hlabel, ok_bind]
  dsimp only
  split
  · rw [addFinal_eq hlt]
  · rfl

/-- And so it is in the loop, which also keeps the number of the state. The stages look it
up by the label instead, and find the same one. -/
theorem searchLoop_addState_eq (hlabel : naming.label x = .ok (name x)) :
    (searchLoop alphabet naming moves finite).addState d x =
      .ok (d.withElement (name x) (naming.isFinal x), (d.addState (name x)).2) := by
  have hlt := StateTable.lt_of_find?_eq_some (d.find?_addState (name x))
  show (do
    let (d, s) := d.addState (← naming.label x)
    return (← if naming.isFinal x then d.addFinal s else pure d, s)) = _
  rw [hlabel, ok_bind]
  unfold withElement
  dsimp only
  split
  · rw [addFinal_eq hlt]
    rfl
  · rfl

/-- A move between elements whose states are there is one transition between these. Adding
their labels again makes nothing new, so the second stage makes transitions only. -/
theorem linkElements_eq {move : Char × α} (hd : d.Valid)
    (hlabel : naming.label move.2 = .ok (name move.2))
    (hs : d.find? (name x) = some s) (ht : d.find? (name move.2) = some t) :
    linkElements naming (name x) d move = .ok (d.link s move.1 t) := by
  have hs' := hd.size_rows.symm ▸ StateTable.lt_of_find?_eq_some hs
  have ht' := hd.size_rows.symm ▸ StateTable.lt_of_find?_eq_some ht
  unfold linkElements
  rw [addState_of_find?_eq_some hs, hlabel]
  dsimp only
  rw [ok_bind, addState_of_find?_eq_some ht]
  exact addTransition_eq hs' ht'

/-- The start can be set before a state is added or after it. The loop sets it at the very
beginning, the stages when all states are there. -/
theorem withStart_withElement :
    (d.withStart s).withElement label final = (d.withElement label final).withStart s := by
  unfold withElement
  cases h : d.find? label with
  | some u =>
    rw [addState_of_find?_eq_some h, addState_of_find?_eq_some (d := d.withStart s) h]
    cases final <;> rfl
  | none =>
    rw [addState_of_find?_eq_none h, addState_of_find?_eq_none (d := d.withStart s) h]
    cases final <;> rfl

/-- A transition changes the row of its source, and a new state puts a row behind all
others. So they can be done in either order, if the source has a row already. -/
theorem link_withState (hs : s < d.rows.size) (h : d.find? label = none) :
    (d.link s c t).withState label h = (d.withState label h).link s c t := by
  have hrows : (d.rows.setIfInBounds s ((d.rows.getD s ∅).insert c t)).push ∅ =
      (d.rows.push ∅).setIfInBounds s (((d.rows.push ∅).getD s ∅).insert c t) := by
    rw [Rows.getD_push_of_lt hs, push_setIfInBounds hs]
  unfold link withState
  dsimp only
  rw [hrows]
  rfl

/-- The same where the state may be there already. Then only a state is made final, which
no transition depends on. -/
theorem link_withElement (hs : s < d.rows.size) :
    (d.link s c t).withElement label final = (d.withElement label final).link s c t := by
  unfold withElement
  cases h : d.find? label with
  | some u =>
    rw [addState_of_find?_eq_some h, addState_of_find?_eq_some (d := d.link s c t) h]
    cases final <;> rfl
  | none =>
    rw [addState_of_find?_eq_none h, addState_of_find?_eq_none (d := d.link s c t) h]
    dsimp only
    rw [link_withState hs h]
    cases final <;> rfl

/-- Adding an element keeps the parts together. -/
theorem valid_withElement (hd : d.Valid) : (d.withElement label final).Valid := by
  have hlt := StateTable.lt_of_find?_eq_some (d.find?_addState label)
  unfold withElement
  dsimp only
  split
  · exact (hd.addState label).addFinal (addFinal_eq hlt)
  · exact hd.addState label

/-- Adding an element adds its label, and no other one, whether the label was in use
before or not. -/
theorem hasAdded_withElement (d : Dfa) (label : String) (final : Bool) :
    d.HasAdded (d.withElement label final).toStateTable label (d.addState label).2 := by
  have hadd : ((d.addState label).1.toStateTable, (d.addState label).2) =
      d.toStateTable.add label := addState_eq_add
  rw [congrArg Prod.snd hadd]
  refine StateTable.hasAdded_of_labels_eq ?_
  rw [← congrArg Prod.fst hadd]
  unfold withElement
  dsimp only
  split
  · rfl
  · rfl

/-- The stages of a search whose elements `xs` have labels. Besides what each step does to
the automaton, two facts are needed to put the loop in order: the start may be set after a
state is added (`start_add`), and so may a transition be added (`link_add`). Both come
down to `withStart_withElement` and `link_withElement`, and to the labels of the elements
at hand having states before and after. -/
def searchStages (alphabet : SortedSet Char) (finite : FiniteRange fun x => (moves x).map (·.2))
    {xs : List α} (hlabel : ∀ x ∈ xs, naming.label x = .ok (name x))
    (hclosed : ∀ x ∈ xs, ∀ move ∈ moves x, move.2 ∈ xs) :
    Stages (searchLoop alphabet naming moves finite) where
  add := addElement naming
  link d p := linkElements naming (name p.1) d p.2
  state? d x := d.find? (name x)
  size := (·.stateCount)
  Proper := (· ∈ xs)
  Valid := Valid
  valid_empty := valid_empty alphabet
  size_empty := rfl
  proper_target := hclosed
  -- what the steps do
  exists_add d x hd hx :=
    ⟨_, _, searchLoop_addState_eq (hlabel x hx), addElement_eq (hlabel x hx),
      valid_withElement hd, (d.hasAdded_withElement _ _).stateCount_le,
      (d.hasAdded_withElement _ _).find?_eq, fun _ _ => (d.hasAdded_withElement _ _).find?_of_some⟩
  exists_start d x s hd hs := by
    have hlt := StateTable.lt_of_find?_eq_some hs
    exact ⟨_, setStart_eq hlt, hd.withStart hlt, rfl, rfl⟩
  exists_link d x move s t hd hx hmove hs ht := by
    have hs' := StateTable.lt_of_find?_eq_some hs
    have ht' := StateTable.lt_of_find?_eq_some ht
    exact ⟨_, addTransition_eq (hd.size_rows.symm ▸ hs') (hd.size_rows.symm ▸ ht'),
      linkElements_eq hd (hlabel _ (hclosed x hx move hmove)) hs ht, hd.link hs' ht', rfl, rfl⟩
  -- in which order they may be done: both sides are computed, and are the same
  start_add d x s y hd hy hs := by
    have hlt := StateTable.lt_of_find?_eq_some hs
    have hadded := d.hasAdded_withElement (name y) (naming.isFinal y)
    have hlt' := StateTable.lt_of_find?_eq_some (hadded.find?_of_some hs)
    show (d.setStart s >>= _) = (addElement naming d y >>= (·.setStart s))
    rw [setStart_eq hlt, ok_bind, addElement_eq (hlabel y hy), addElement_eq (hlabel y hy), ok_bind,
      setStart_eq hlt', withStart_withElement]
  link_add d x move s t y hd hx hmove hy hs ht := by
    have htarget := hlabel _ (hclosed x hx move hmove)
    have hs' := StateTable.lt_of_find?_eq_some hs
    have hadded := d.hasAdded_withElement (name y) (naming.isFinal y)
    -- the ends of the transition have the same states once `y` is added
    have hswap := linkElements_eq (valid_withElement hd) htarget (hadded.find?_of_some hs)
      (hadded.find?_of_some ht)
    show (linkElements naming (name x) d move >>= _) =
      (addElement naming d y >>= (linkElements naming (name x) · move))
    rw [linkElements_eq hd htarget hs ht, ok_bind, addElement_eq (hlabel y hy),
      addElement_eq (hlabel y hy), ok_bind, hswap, link_withElement (hd.size_rows.symm ▸ hs')]

variable {xs rest : List α} {states : List (α × Nat)} {base made : Dfa} {bound : Nat}
  {hlabel : ∀ x ∈ xs, naming.label x = .ok (name x)}
  {hclosed : ∀ x ∈ xs, ∀ move ∈ moves x, move.2 ∈ xs}

/-- What the stages make is the automaton of the elements that were found: the states of
all of them, the start at the first one, and then all moves. Both sides go through the
elements in one order. -/
theorem ofElements_eq_of_makes
    (h : (searchStages alphabet finite hlabel hclosed).Makes x s states
      ((searchLoop alphabet naming moves finite).movesFrom (x :: rest)) base made)
    (hstates : states.map (·.1) = x :: rest) :
    ofElements alphabet naming ((x :: rest).map fun y => (y, moves y)) = .ok made := by
  have hxs : ∀ y ∈ x :: rest, y ∈ xs := by
    intro y hy
    rw [← hstates] at hy
    exact (h.exists_state hy).1
  have hbase : (x :: rest).foldlM (addElement naming) { alphabet := alphabet } = .ok base :=
    hstates ▸ h.base_eq
  have hfind : base.find? (name x) = some s := h.state?_eq (x, s) h.start_mem
  obtain ⟨started, hstart, hlinks⟩ := bind_eq_ok.mp h.made_eq
  -- the moves of one element, in the form in which each side adds them
  have hvisit : ∀ y ∈ x :: rest, ∀ d, addMoves naming d (y, moves y) =
      ((searchLoop alphabet naming moves finite).moves y).foldlM
        (fun d move => (searchStages alphabet finite hlabel hclosed).link d (y, move)) d := by
    intro y hy d
    rw [addMoves, hlabel y (hxs y hy)]
    rfl
  unfold ofElements
  rw [List.foldlM_map, hbase, ok_bind, List.map_cons]
  dsimp only
  rw [hlabel x (hxs x List.mem_cons_self), ok_bind, addState_of_find?_eq_some hfind]
  dsimp only
  rw [show base.setStart s = .ok started from hstart, ok_bind,
    ← List.map_cons (f := fun y => (y, moves y)), List.foldlM_map]
  exact (Stages.foldlM_movesFrom hvisit started).trans hlinks

/-- The loop of a search ends, and makes the automaton of the elements that the search
finds. The bound is on lists of distinct elements, so it does not depend on how many
states are made. -/
theorem exists_searchLoop (finite : FiniteRange fun x => (moves x).map (·.2))
    (hlabel : ∀ x ∈ xs, naming.label x = .ok (name x))
    (hclosed : ∀ x ∈ xs, ∀ move ∈ moves x, move.2 ∈ xs) (hx : x ∈ xs)
    (hbound : ∀ ys : List α, ys.Nodup → (∀ y ∈ ys, y ∈ xs) → ys.length ≤ bound)
    [Keyed α] [DecidableEq α] :
    ∃ last, (searchLoop alphabet naming moves finite).EndsWithin x bound none last ∧
      ofElements alphabet naming
        ((explore _ finite [x]).map fun y => (y, moves y)) = .ok last.made ∧
      last.made.stateCount ≤ bound := by
  obtain ⟨last, s, base, hends, helements, hsize, hmakes⟩ :=
    (searchStages alphabet finite hlabel hclosed).exists_makes rfl hx hbound
  -- what the loop begins with is the first of its elements
  obtain ⟨rest, hrest⟩ : ∃ rest, last.elements = x :: rest := by
    obtain ⟨rest, hrest⟩ : [x] <+: last.elements := helements ▸ start_prefix_explore (by simp)
    exact ⟨rest, hrest.symm⟩
  refine ⟨last, hends, ?_, hsize⟩
  rw [hrest] at hmakes
  have hmade := ofElements_eq_of_makes hmakes hrest
  rwa [← hrest, helements] at hmade

end Dfa

-- ---------------------------------------------------------------------------
-- Products
-- ---------------------------------------------------------------------------

namespace Nfa

variable {l r n : Nfa} {p q origin : Nat × Nat} {move : PairMove} {label : String} {final : Bool}
  {s t : Nat} {edge : Nat × Symbol × Nat} {tie : Tie}

/-- The automaton with a state of this label, final if it has to be. -/
def withElement (n : Nfa) (label : String) (final : Bool) : Nfa :=
  let (n, s) := n.addState label
  if final then n.withFinals (n.finals.insert s) else n

/-- Both members of the pair are final. -/
def pairFinal (l r : Nfa) (p : Nat × Nat) : Bool := l.isFinal p.1 && r.isFinal p.2

/-- In stages, a pair is added as one step: its name gets a state, which is made final or
not. Both members exist, so asking for their labels does not fail. -/
theorem addPair_eq (hp : HasPair l r p) :
    addPair l r n p = .ok (n.withElement (pairName l r p) (pairFinal l r p)) := by
  have hlt := StateTable.lt_of_find?_eq_some (n.find?_addState (pairName l r p))
  unfold addPair withElement pairFinal
  rw [pairLabel_eq_ok hp, ok_bind]
  dsimp only
  split
  · rw [addFinal_eq hlt]
  · rfl

/-- And so it is in the loop, which also keeps the number of the state for later moves. -/
theorem productLoop_addState_eq (hp : HasPair l r p) :
    (productLoop l r).addState n p =
      .ok (n.withElement (pairName l r p) (pairFinal l r p),
        (n.addState (pairName l r p)).2) := by
  have hlt := StateTable.lt_of_find?_eq_some (n.find?_addState (pairName l r p))
  show (do
    let (n, s) := n.addState (← pairLabel l r p)
    return (← if l.isFinal p.1 && r.isFinal p.2 then n.addFinal s else pure n, s)) = _
  rw [pairLabel_eq_ok hp, ok_bind]
  unfold withElement pairFinal
  dsimp only
  split
  · rw [addFinal_eq hlt]
    rfl
  · rfl

/-- The loop adds a move between states as a transition and a tie, in one step. Between
states that exist neither of the two is refused. -/
theorem productLoop_addMove_eq (hs : s < n.rows.size) (ht : t < n.rows.size) :
    (productLoop l r).addMove n s move t =
      .ok (n.extend [(s, move.symbol, t)] [{ source := s, target := t, held := move.held }]) := by
  show (do
    let n ← n.addTransition s move.symbol t
    return n.recordTie { source := s, target := t, held := move.held }) = _
  rw [addTransition_eq hs ht, ok_bind, recordTie_eq, extend_extend]
  rfl

/-- A move between pairs whose states are there is one transition between these, with its
tie. -/
theorem linkPairs_eq (hn : n.Valid) (htarget : HasPair l r move.target)
    (hs : n.find? (pairName l r p) = some s) (ht : n.find? (pairName l r move.target) = some t) :
    linkPairs l r (pairName l r p) n move =
      .ok (n.extend [(s, move.symbol, t)] [{ source := s, target := t, held := move.held }]) := by
  have hs' := hn.size_rows.symm ▸ StateTable.lt_of_find?_eq_some hs
  have ht' := hn.size_rows.symm ▸ StateTable.lt_of_find?_eq_some ht
  unfold linkPairs
  rw [addState_of_find?_eq_some hs, pairLabel_eq_ok htarget]
  dsimp only
  rw [ok_bind, addState_of_find?_eq_some ht]
  dsimp only
  rw [addTransition_eq hs' ht', ok_bind, recordTie_eq, extend_extend]
  rfl

/-- The start can be set before a state is added or after it, for products as for
searches. -/
theorem withStart_withElement :
    (n.withStart s).withElement label final = (n.withElement label final).withStart s := by
  unfold withElement
  cases h : n.find? label with
  | some u =>
    rw [addState_of_find?_eq_some h, addState_of_find?_eq_some (n := n.withStart s) h]
    cases final <;> rfl
  | none =>
    rw [addState_of_find?_eq_none h, addState_of_find?_eq_none (n := n.withStart s) h]
    cases final <;> rfl

/-- As with deterministic automata, a transition changes the row of its source only, and
the tie does not touch the rows at all. -/
theorem extend_withState (hs : edge.1 < n.rows.size) (h : n.find? label = none) :
    (n.extend [edge] [tie]).withState label h = (n.withState label h).extend [edge] [tie] := by
  have hrows : (n.rows.setIfInBounds edge.1
      (insertTarget (n.rows.getD edge.1 ∅) edge.2.1 edge.2.2)).push ∅ =
        (n.rows.push ∅).setIfInBounds edge.1
          (insertTarget ((n.rows.push ∅).getD edge.1 ∅) edge.2.1 edge.2.2) := by
    rw [Rows.getD_push_of_lt hs, push_setIfInBounds hs]
  unfold extend withState
  dsimp only [List.foldl_cons, List.foldl_nil]
  rw [hrows]
  rfl

/-- The same where the state may be there already: a transition out of a state that exists
and a state that is added do not get in each other's way. -/
theorem extend_withElement (hs : edge.1 < n.rows.size) :
    (n.extend [edge] [tie]).withElement label final =
      (n.withElement label final).extend [edge] [tie] := by
  unfold withElement
  cases h : n.find? label with
  | some u =>
    rw [addState_of_find?_eq_some h, addState_of_find?_eq_some (n := n.extend [edge] [tie]) h]
    cases final <;> rfl
  | none =>
    rw [addState_of_find?_eq_none h, addState_of_find?_eq_none (n := n.extend [edge] [tie]) h]
    dsimp only
    rw [extend_withState hs h]
    cases final <;> rfl

/-- Adding a pair keeps the parts together. -/
theorem valid_withElement (hn : n.Valid) : (n.withElement label final).Valid := by
  have hlt := StateTable.lt_of_find?_eq_some (n.find?_addState label)
  unfold withElement
  dsimp only
  split
  · exact (hn.addState label).addFinal (addFinal_eq hlt)
  · exact hn.addState label

/-- Adding a pair adds its label, and no other one, whether the label was in use before or
not. -/
theorem hasAdded_withElement (n : Nfa) (label : String) (final : Bool) :
    n.HasAdded (n.withElement label final).toStateTable label (n.addState label).2 := by
  have hadd : ((n.addState label).1.toStateTable, (n.addState label).2) =
      n.toStateTable.add label := addState_eq_add
  rw [congrArg Prod.snd hadd]
  refine StateTable.hasAdded_of_labels_eq ?_
  rw [← congrArg Prod.fst hadd]
  unfold withElement
  dsimp only
  split
  · rfl
  · rfl

theorem hasPair_target (hl : l.Valid) (hr : r.Valid) (hp : HasPair l r p)
    (hmove : move ∈ pairMoves l r p) : HasPair l r move.target :=
  ((exists_mem_pairMoves_iff hl hr hp).mp ⟨move, hmove, rfl, rfl⟩).hasPair hl hr hp

/-- The stages of a product. They are those of a search, with ties recorded along with
transitions. -/
def productStages (hl : l.Valid) (hr : r.Valid) : Stages (productLoop l r) where
  add := addPair l r
  link n p := linkPairs l r (pairName l r p.1) n p.2
  state? n p := n.find? (pairName l r p)
  size := (·.stateCount)
  Proper := HasPair l r
  Valid := Valid
  valid_empty := valid_empty (l.alphabet ∪ r.alphabet)
  size_empty := rfl
  proper_target _ hp _ hmove := hasPair_target hl hr hp hmove
  -- what the steps do
  exists_add n p hn hp :=
    ⟨_, _, productLoop_addState_eq hp, addPair_eq hp, valid_withElement hn,
      (n.hasAdded_withElement _ _).stateCount_le, (n.hasAdded_withElement _ _).find?_eq,
      fun _ _ => (n.hasAdded_withElement _ _).find?_of_some⟩
  exists_start n p s hn hs := by
    have hlt := StateTable.lt_of_find?_eq_some hs
    exact ⟨_, setStart_eq hlt, hn.withStart hlt, rfl, rfl⟩
  exists_link n p move s t hn hp hmove hs ht := by
    have hs' := StateTable.lt_of_find?_eq_some hs
    have ht' := StateTable.lt_of_find?_eq_some ht
    exact ⟨_, productLoop_addMove_eq (hn.size_rows.symm ▸ hs') (hn.size_rows.symm ▸ ht'),
      linkPairs_eq hn (hasPair_target hl hr hp hmove) hs ht,
      hn.extend (by simpa using ⟨hs', ht'⟩), rfl, rfl⟩
  -- in which order they may be done: both sides are computed, and are the same
  start_add n p s q hn hq hs := by
    have hlt := StateTable.lt_of_find?_eq_some hs
    have hadded := n.hasAdded_withElement (pairName l r q) (pairFinal l r q)
    have hlt' := StateTable.lt_of_find?_eq_some (hadded.find?_of_some hs)
    show (n.setStart s >>= _) = (addPair l r n q >>= (·.setStart s))
    rw [setStart_eq hlt, ok_bind, addPair_eq hq, addPair_eq hq, ok_bind, setStart_eq hlt',
      withStart_withElement]
  link_add n p move s t q hn hp hmove hq hs ht := by
    have htarget := hasPair_target hl hr hp hmove
    have hs' := StateTable.lt_of_find?_eq_some hs
    have hadded := n.hasAdded_withElement (pairName l r q) (pairFinal l r q)
    have hswap := linkPairs_eq (valid_withElement hn) htarget (hadded.find?_of_some hs)
      (hadded.find?_of_some ht)
    show (linkPairs l r (pairName l r p) n move >>= _) =
      (addPair l r n q >>= (linkPairs l r (pairName l r p) · move))
    rw [linkPairs_eq hn htarget hs ht, ok_bind, addPair_eq hq, addPair_eq hq, ok_bind, hswap,
      extend_withElement (hn.size_rows.symm ▸ hs')]

/-- What the stages make is the product: the states of all pairs, the start at the first
one, and then all moves. -/
theorem interleaveFrom_eq_of_makes {hl : l.Valid} {hr : r.Valid} {states : List ((Nat × Nat) × Nat)}
    {base made : Nfa} (h : (productStages hl hr).Makes origin s states
      ((productLoop l r).movesFrom (reachedPairs l r origin)) base made)
    (hstates : states.map (·.1) = reachedPairs l r origin) :
    interleaveFrom l r origin = .ok made := by
  have hpairs : ∀ p ∈ reachedPairs l r origin, HasPair l r p := by
    intro p hp
    rw [← hstates] at hp
    exact (h.exists_state hp).1
  have hbase : (reachedPairs l r origin).foldlM (addPair l r)
      { alphabet := l.alphabet ∪ r.alphabet } = .ok base := hstates ▸ h.base_eq
  have hfind : base.find? (pairName l r origin) = some s := h.state?_eq (origin, s) h.start_mem
  obtain ⟨started, hstart, hlinks⟩ := bind_eq_ok.mp h.made_eq
  -- the moves of one pair, in the form in which each side adds them
  have hvisit : ∀ p ∈ reachedPairs l r origin, ∀ n, addPairMoves l r n p =
      ((productLoop l r).moves p).foldlM
        (fun n move => (productStages hl hr).link n (p, move)) n := by
    intro p hp n
    rw [addPairMoves_eq hl hr (hpairs p hp)]
    rfl
  have horigin : HasPair l r origin := h.proper (origin, s) h.start_mem
  rw [interleaveFrom, hbase, ok_bind, pairLabel_eq_ok horigin, ok_bind,
    addState_of_find?_eq_some hfind]
  dsimp only
  rw [show base.setStart s = .ok started from hstart, ok_bind]
  exact (Stages.foldlM_movesFrom hvisit started).trans hlinks

end Nfa

-- ---------------------------------------------------------------------------
-- Comparisons
-- ---------------------------------------------------------------------------

namespace Dfa

variable {a b : Dfa} {p : Pair}

/-- Both members of the pair exist, or are no states. An automaton that is left without a
state stays in the comparison, as the other one may still accept. -/
def InRange (a b : Dfa) (p : Pair) : Prop :=
  (∀ s, p.1 = some s → s < a.stateCount) ∧ ∀ s, p.2 = some s → s < b.stateCount

/-- What is led to is a state, if there is anything. -/
theorem lt_of_nextOf (ha : a.Valid) {s? : Option Nat} {c : Char} :
    ∀ t, a.nextOf s? c = some t → t < a.stateCount := by
  intro t ht
  cases s? with
  | none => exact nomatch ht
  | some s => exact ha.next_lt s c t ht

/-- Nothing is made of the pairs, so that there is nothing to do in either stage. What is
left to show is that the pairs stay in range, which is why the loop never fails. -/
def comparisonStages (ha : a.Valid) (hb : b.Valid) : Stages (comparisonLoop a b) where
  add _ _ := .ok ()
  link _ _ := .ok ()
  state? _ _ := some 0
  size _ := 0
  Proper := InRange a b
  Valid _ := True
  valid_empty := trivial
  size_empty := rfl
  proper_target _ _ _ _ := ⟨lt_of_nextOf ha, lt_of_nextOf hb⟩
  exists_add _ _ _ _ := ⟨(), 0, rfl, rfl, trivial, Nat.zero_le _, rfl, fun _ _ h => h⟩
  exists_start _ _ _ _ _ := ⟨(), rfl, trivial, rfl, rfl⟩
  exists_link _ _ _ _ _ _ _ _ _ _ := ⟨(), rfl, rfl, trivial, rfl, rfl⟩
  start_add _ _ _ _ _ _ _ := rfl
  link_add _ _ _ _ _ _ _ _ _ _ _ _ := rfl

end Dfa

end PatternAutomata
