import Mathlib.Data.Finset.Option
import Mathlib.Data.Finset.Powerset
import Mathlib.Data.Finset.Prod
import Mathlib.Order.Interval.Finset.Nat
import PatternAutomata.Proofs.Automaton.Stages
import PatternAutomata.Proofs.Automaton.Store
import PatternAutomata.Proofs.Thompson.Steps
import PatternAutomata.Proofs.Useful

/-!
# Pattern automata — the loops of the constructions end

Every loop of a construction queues an element once, whatever the automaton that it
makes looks like, and its elements come from a finite stock: sets of states or of
positions that are not empty, pairs of states of two operands, pairs of states or of
no state. So the size of the stock bounds how many elements are taken out of the
queue.

The stock counts the elements and not the states that are made. If labels are shared
there are fewer states than elements, and the bounds hold all the more.

## Results

* `length_sets_le`, `Dfa.length_pairs_le` — how many sets and pairs there can be.
* `Nfa.Valid.subsetLoopEnds`, `Nfa.Valid.productLoopEnds`, `Dfa.Valid.comparisonLoopEnds`,
  `ParseTree.positionLoopEnds` — one result for each loop: it ends within its bound, and makes what
  the construction makes.
* `loops_end` — all loops end, on all automata that operations make and on the trees of all
  patterns.
-/

namespace PatternAutomata

variable {α γ : Type}

-- ---------------------------------------------------------------------------
-- How many elements there can be
-- ---------------------------------------------------------------------------

/-- Distinct elements are no more than what they stand for, if they stand for different
things. -/
theorem length_le_card [DecidableEq γ] {xs : List α} {u : Finset γ} {f : α → γ} (hxs : xs.Nodup)
    (hf : Function.Injective f) (hmem : ∀ x ∈ xs, f x ∈ u) : xs.length ≤ u.card := by
  have hsubset : (xs.map f).toFinset ⊆ u := by
    intro y hy
    obtain ⟨x, hx, rfl⟩ := List.mem_map.mp (List.mem_toFinset.mp hy)
    exact hmem x hx
  have hle := Finset.card_le_card hsubset
  rwa [List.toFinset_card_of_nodup (hxs.map hf), List.length_map] at hle

/-- There are `2 ^ n - 1` sets over `n` numbers that are not empty, so a list without
repetitions has no more of them. -/
theorem length_sets_le {xs : List (SortedSet Nat)} (u : Finset Nat) (hxs : xs.Nodup)
    (hmem : ∀ set ∈ xs, set ≠ ∅ ∧ ∀ p ∈ set, p ∈ u) : xs.length ≤ 2 ^ u.card - 1 := by
  -- a sorted set is known by its members
  have hinj : Function.Injective fun set : SortedSet Nat => set.toList.toFinset := by
    intro x y hxy
    refine SortedSet.ext fun p => ?_
    have hp := congrArg (p ∈ ·) hxy
    simpa [List.mem_toFinset, SortedSet.mem_toList] using hp
  have hcard : (u.powerset.erase ∅).card = 2 ^ u.card - 1 := by
    rw [Finset.card_erase_of_mem (Finset.empty_mem_powerset u), Finset.card_powerset]
  rw [← hcard]
  refine length_le_card hxs hinj fun set hset => Finset.mem_erase.mpr ⟨fun hempty => ?_, ?_⟩
  · obtain ⟨hne, -⟩ := hmem set hset
    obtain ⟨p, hp⟩ := SortedSet.ne_empty_iff.mp hne
    rw [← SortedSet.mem_toList, ← List.mem_toFinset, hempty] at hp
    exact absurd hp (Finset.notMem_empty p)
  · refine Finset.mem_powerset.mpr fun p hp => (hmem set hset).2 p ?_
    exact SortedSet.mem_toList.mp (List.mem_toFinset.mp hp)

/-- There are `(m + 1) * (n + 1)` pairs of states or of no states: being left without a
state counts as one more. -/
theorem Dfa.length_pairs_le {a b : Dfa} {ps : List Dfa.Pair} (hps : ps.Nodup)
    (hmem : ∀ p ∈ ps, InRange a b p) : ps.length ≤ (a.stateCount + 1) * (b.stateCount + 1) := by
  have hcard : ((Finset.range a.stateCount).insertNone ×ˢ
      (Finset.range b.stateCount).insertNone).card = (a.stateCount + 1) * (b.stateCount + 1) := by
    rw [Finset.card_product, Finset.card_insertNone, Finset.card_insertNone, Finset.card_range,
      Finset.card_range]
  rw [← hcard]
  refine length_le_card hps Function.injective_id fun p hp => Finset.mem_product.mpr ?_
  obtain ⟨hleft, hright⟩ := hmem p hp
  refine ⟨Finset.mem_insertNone.mpr fun s hs => ?_, Finset.mem_insertNone.mpr fun s hs => ?_⟩
  · exact Finset.mem_range.mpr (hleft s hs)
  · exact Finset.mem_range.mpr (hright s hs)

-- ---------------------------------------------------------------------------
-- The loops end
-- ---------------------------------------------------------------------------

/-- Determinization takes each set once, and makes no more states than there are sets.
Without a start there is no loop. That the loop makes what the construction makes is a
part of this, so the bound is one on the construction. -/
structure Nfa.SubsetLoopEnds (n : Nfa) : Prop where
  no_start : n.start = none → Dfa.ofNfa n = .ok { alphabet := n.alphabet }
  exists_loop : ∀ s, n.start = some s → ∃ last,
    n.subsetLoop.EndsWithin n.initial (2 ^ n.stateCount - 1) none last ∧
    Dfa.ofNfa n = .ok last.made ∧ last.made.stateCount ≤ 2 ^ n.stateCount - 1

/-- The product that starts at `origin` takes each pair once, and makes what the
construction makes. -/
def Nfa.ProductLoopEnds (l r : Nfa) (origin : Nat × Nat) : Prop :=
  ∃ last, (Nfa.productLoop l r).EndsWithin origin (l.stateCount * r.stateCount) none last ∧
    l.interleave r = .ok last.made

/-- The comparison takes each pair once, and the automata are equivalent if it does not leave. -/
def Dfa.ComparisonLoopEnds (a b : Dfa) : Prop :=
  ∃ left? last, (Dfa.comparisonLoop a b).EndsWithin (a.start, b.start)
      ((a.stateCount + 1) * (b.stateCount + 1)) left? last ∧
    Dfa.equivalent a b = .ok left?.isNone

/-- The direct construction takes each set of positions once, and makes no more states than there
are sets. -/
def ParseTree.PositionLoopEnds (t : ParseTree) : Prop :=
  ∃ a f first last, Annotations.ofTree t = .ok a ∧ FollowTable.ofTree t a = .ok f ∧
    a.first t.root = .ok first ∧
    (f.positionLoop t).EndsWithin first (2 ^ t.endPosition - 1) none last ∧
    t.direct = .ok last.made ∧ last.made.stateCount ≤ 2 ^ t.endPosition - 1

/-- The stock of determinization: the sets over its states. The empty one is not among
them, since with a start something is held at first, and no move leads to the empty set. -/
theorem Nfa.Valid.subsetLoopEnds {n : Nfa} (hn : n.Valid) : n.SubsetLoopEnds where
  no_start h := by rw [Dfa.ofNfa, h]
  exists_loop s hs := by
    obtain ⟨rest, hrest⟩ := n.exists_subsets_eq_cons
    have hinitial : n.initial ∈ n.subsets := hrest ▸ List.mem_cons_self
    have hlabel : ∀ set ∈ n.subsets, n.subsetNaming.label set = .ok (n.subsetName set) :=
      fun set hset => subsetLabel_eq_ok (lt_of_mem_subsets hn hset)
    have hclosed : ∀ set ∈ n.subsets, ∀ move ∈ n.subsetMoves set, move.2 ∈ n.subsets :=
      fun _ hset _ hmove => target_mem_subsets hset hmove
    -- reached sets are distinct and not empty, and their members are states
    have hbound : ∀ sets : List (SortedSet Nat), sets.Nodup → (∀ set ∈ sets, set ∈ n.subsets) →
        sets.length ≤ 2 ^ n.stateCount - 1 := by
      intro sets hsets hmem
      have hle := length_sets_le (Finset.range n.stateCount) hsets fun set hset =>
        ⟨ne_empty_of_mem_subsets hs (hmem set hset), fun q hq =>
          Finset.mem_range.mpr (lt_of_mem_subsets hn (hmem set hset) q hq)⟩
      rwa [Finset.card_range] at hle
    obtain ⟨last, hends, hmade, hsize⟩ :=
      Dfa.exists_searchLoop n.finiteRange_nextSubsets hlabel hclosed hinitial hbound
    refine ⟨last, hends, ?_, hsize⟩
    rw [Dfa.ofNfa, hs, checkedVisits_eq hn]
    exact hmade

/-- The stock of a product: the pairs of states. No more of them can be queued than there
are, and the queue is that of the search, so what was made is what the product makes. -/
theorem Nfa.Valid.productLoopEnds {l r : Nfa} {s t : Nat} (hl : l.Valid) (hr : r.Valid)
    (hs : l.start = some s) (ht : r.start = some t) : ProductLoopEnds l r (s, t) := by
  have horigin : HasPair l r (s, t) := ⟨hl.start_lt s hs, hr.start_lt t ht⟩
  have hbound : ∀ ps : List (Nat × Nat), ps.Nodup → (∀ p ∈ ps, HasPair l r p) →
      ps.length ≤ l.stateCount * r.stateCount := by
    intro ps hps hmem
    have hle : ps.length ≤ (Finset.range l.stateCount ×ˢ Finset.range r.stateCount).card :=
      length_le_card hps Function.injective_id fun p hp => Finset.mem_product.mpr
        ⟨Finset.mem_range.mpr (hmem p hp).1, Finset.mem_range.mpr (hmem p hp).2⟩
    rwa [Finset.card_product, Finset.card_range, Finset.card_range] at hle
  obtain ⟨last, _, _, hends, helements, -, hmakes⟩ :=
    (productStages hl hr).exists_makes rfl horigin hbound
  -- what was taken out are the pairs of the search, in its order
  refine ⟨last, hends, ?_⟩
  have hpairs : last.states.map (·.1) = reachedPairs l r (s, t) := helements
  rw [helements] at hmakes
  rw [interleave_eq hs ht]
  exact interleaveFrom_eq_of_makes hmakes hpairs

/-- The stock of a comparison: the pairs of states or of no states. The loop leaves at the
first pair that disagrees, which is the pair that settles the question in the other form
of the comparison. -/
theorem Dfa.Valid.comparisonLoopEnds {a b : Dfa} (ha : a.Valid) (hb : b.Valid) :
    ComparisonLoopEnds a b := by
  have hstart : InRange a b (a.start, b.start) := ⟨ha.start_lt, hb.start_lt⟩
  obtain ⟨left?, last, _, hends, hran⟩ := (comparisonStages ha hb).exists_endsWithin hstart
    fun _ hps hmem => length_pairs_le hps hmem
  refine ⟨left?, last, hends, ?_⟩
  have hleft : left? = (reachedPairs a b).find? (disagree a b) := by
    rw [hran.left_eq]
    refine (Frontier.getElem?_size_steps_run _).trans ?_
    rw [Frontier.steps_pushAll]
    rfl
  -- no pair that is reached has a member that is out of range
  have hsettles : settlingPair? a b = left? := by
    rw [settlingPair?_eq, hleft, ← List.head?_filter, ← List.head?_filter]
    exact congrArg List.head? (List.filter_congr fun p hp => settles_of_mem ha hb hp)
  unfold equivalent
  rw [hsettles]
  cases h : left? with
  | none => rfl
  | some p => exact if_pos (List.find?_some (hleft.symm.trans h))

/-- The stock of the direct construction: the sets over the positions from `1` to the end
marker. None that is reached is empty. -/
theorem ParseTree.positionLoopEnds {pattern : String} {d : Dialect} {body : Expr Char}
    (hshuffle : (ofExpr pattern d body).hasShuffle = false) :
    (ofExpr pattern d body).PositionLoopEnds := by
  obtain ⟨a, f, first, dfa, -, h, -⟩ := exists_positionAutomaton hshuffle
  have hfirst : first ∈ f.reachedSets (ofExpr pattern d body) first :=
    mem_explore_iff.mpr ⟨first, List.mem_singleton.mpr rfl, .refl⟩
  -- the positions in a set are in range, and no set that is reached is empty
  have hbound : ∀ sets : List (SortedSet Nat), sets.Nodup →
      (∀ set ∈ sets, set ∈ f.reachedSets (ofExpr pattern d body) first) →
      sets.length ≤ 2 ^ (ofExpr pattern d body).endPosition - 1 := by
    intro sets hsets hmem
    have hle := length_sets_le (Finset.Icc 1 (ofExpr pattern d body).endPosition) hsets
      fun set hset => ⟨h.ne_empty_of_mem_reachedSets (hmem set hset), fun p hp => ?_⟩
    · rwa [Nat.card_Icc, Nat.add_sub_cancel] at hle
    · exact Finset.mem_Icc.mpr (h.in_range set (hmem set hset) p hp)
  obtain ⟨last, hends, hmade, hsize⟩ :=
    Dfa.exists_searchLoop (f.finiteRange_nextSets (ofExpr pattern d body)) h.proper.label
      h.proper.target_mem hfirst hbound
  refine ⟨a, f, first, last, h.annotations, h.follow, h.first, hends, ?_, hsize⟩
  exact direct_eq_positionAutomaton hshuffle
    ((positionAutomaton_eq h.annotations h.follow h.first h.visits_eq).trans hmade)

/-- What is taken out of a slot is valid, and so is what stays. -/
theorem Workshop.SlotsValid.take {slots : Slots Nfa} {n : Nfa} {i : Nat} (hslots : SlotsValid slots)
    (h : (slots.take i).1 = some n) : n.Valid ∧ SlotsValid (slots.take i).2 := by
  have hpair : slots.take i = (some n, (slots.take i).2) := Prod.ext h rfl
  have htake : Workshop.takeChild slots 0 i = .ok (n, (slots.take i).2) := by
    unfold Workshop.takeChild
    rw [hpair]
  exact hslots.takeChild htake

/-- The operands of every interleaving of a pattern fit together. They are the fragments
of the two children, which the run up to that node has put into their slots. -/
theorem ParseTree.exists_valid_operands {pattern : String} {d : Dialect} {body : Expr Char}
    {before after : List Node} {i j : Nat}
    (h : (ofExpr pattern d body).nodes = before ++ .shuffle i j :: after) :
    ∃ slots w left right s t, (Workshop.nodes #[] 0 before).run {} = .ok (slots, w) ∧
      Workshop.Operands slots i j left right s t ∧ left.Valid ∧ right.Valid := by
  obtain ⟨slots, w, hrun, left, right, s, t, -, hops, -⟩ := exists_ready h
  have hempty : Workshop.SlotsValid #[] := fun n hn => absurd hn (Array.not_mem_empty _)
  have hslots : Workshop.SlotsValid slots := Workshop.yields_nodes hempty 0 before {} slots w hrun
  obtain ⟨hleft, hrest⟩ := hslots.take hops.take_left
  exact ⟨slots, w, left, right, s, t, hrun, hops, hleft, (hrest.take hops.take_right).1⟩

-- ---------------------------------------------------------------------------
-- All loops
-- ---------------------------------------------------------------------------

/-- The loops over the automata that a program has made: that of determinizing any of
them, that of interleaving any two, and that of comparing any two. -/
structure Store.LoopsEnd (store : Store) : Prop where
  determinize : ∀ n ∈ store.nfas, n.SubsetLoopEnds
  interleave : ∀ l ∈ store.nfas, ∀ r ∈ store.nfas, ∀ s t, l.start = some s → r.start = some t →
    Nfa.ProductLoopEnds l r (s, t)
  compare : ∀ a ∈ store.dfas, ∀ b ∈ store.dfas, Dfa.ComparisonLoopEnds a b

/-- The loops of the constructions from a tree: that of its position automaton, that of the subset
automaton which takes its place if there are interleavings, and those of the interleavings. -/
structure ParseTree.LoopsEnd (t : ParseTree) : Prop where
  positions : t.hasShuffle = false → t.PositionLoopEnds
  subsets : ∃ n, t.thompson = .ok n ∧ n.SubsetLoopEnds ∧
    (t.hasShuffle = true → t.direct = Dfa.ofNfa n)
  products : ∀ before i j after, t.nodes = before ++ .shuffle i j :: after →
    ∃ slots w left right s u, (Workshop.nodes #[] 0 before).run {} = .ok (slots, w) ∧
      Workshop.Operands slots i j left right s u ∧ Nfa.ProductLoopEnds left right (s, u)

/-- All automata of a program are valid, and this is all that the loops need. -/
theorem Store.Valid.loopsEnd {store : Store} (h : store.Valid) : store.LoopsEnd where
  determinize n hn := (h.nfas n hn).subsetLoopEnds
  interleave l hl r hr _ _ hs ht := (h.nfas l hl).productLoopEnds (h.nfas r hr) hs ht
  compare a ha b hb := (h.dfas a ha).comparisonLoopEnds (h.dfas b hb)

/-- All loops over the tree of a pattern end, with interleavings and without. Its
automaton and the operands of its interleavings are valid, which is all that these loops
need. -/
theorem ParseTree.loopsEnd_ofExpr (pattern : String) (d : Dialect) (body : Expr Char) :
    (ofExpr pattern d body).LoopsEnd where
  positions := positionLoopEnds
  subsets := by
    obtain ⟨n, hn, hvalid, hnames, -⟩ := exists_thompson pattern d body
    obtain ⟨dfa, hdfa, -⟩ := exists_ofNfa hvalid hnames
    exact ⟨n, hn, hvalid.subsetLoopEnds, fun hshuffle =>
      (direct_eq_ofNfa hshuffle hn hdfa).trans hdfa.symm⟩
  products before i j after h := by
    obtain ⟨slots, w, left, right, s, u, hrun, hops, hleft, hright⟩ := exists_valid_operands h
    exact ⟨slots, w, left, right, s, u, hrun, hops,
      hleft.productLoopEnds hright hops.start_left hops.start_right⟩

/-- **All loops end**: on any automata that operations make and on the tree of any
pattern. Nothing is queued twice, and no more is taken out than there are sets or pairs,
whatever the labels are; what has been made at the end is what the constructions say. -/
theorem loops_end {operations : List Operation} {store : Store} {o : Options} {pattern : String}
    {t : ParseTree} (h : ({} : Store).run operations = .ok store) (ht : compile o pattern = .ok t) :
    store.LoopsEnd ∧ t.LoopsEnd := by
  obtain ⟨body, -, rfl⟩ := compile_eq_ok_iff.mp ht
  exact ⟨(Store.valid_empty.run h).loopsEnd, ParseTree.loopsEnd_ofExpr pattern o.dialect body⟩

/-- A cyclic automaton two of whose sets share a label, another that is a loop, a pattern without
interleavings and one with an interleaving under a star. -/
theorem loops_end_of_cycles_and_shared_labels :
    ∃ store n t t', ({} : Store).run [.newNfa, .editNfa 0 (.addState "a"),
        .editNfa 0 (.addState "a,b"), .editNfa 0 (.addState "b"), .editNfa 0 (.setStart 0),
        .editNfa 0 (.addFinal 1), .editNfa 0 (.addTransition 0 (.char 'x') 1),
        .editNfa 0 (.addTransition 1 (.char 'x') 0), .editNfa 0 (.addTransition 0 .epsilon 2),
        .editNfa 0 (.addTransition 2 .epsilon 0), .newDfa, .editDfa 0 (.addState "s"),
        .editDfa 0 (.setStart 0), .editDfa 0 (.addTransition 0 'x' 0)] = .ok store ∧
      n ∈ store.nfas ∧ n.start = some 0 ∧
      n.subsetLabel (.ofList [0, 2]) = n.subsetLabel (.ofList [1]) ∧
      compile {} "((a*b)*c)*" = .ok t ∧ compile { dialect := .parallel } "(a&b)*c" = .ok t' ∧
      store.LoopsEnd ∧ t.LoopsEnd ∧ t'.LoopsEnd := by
  have hrun : (({} : Store).run [.newNfa, .editNfa 0 (.addState "a"),
      .editNfa 0 (.addState "a,b"), .editNfa 0 (.addState "b"), .editNfa 0 (.setStart 0),
      .editNfa 0 (.addFinal 1), .editNfa 0 (.addTransition 0 (.char 'x') 1),
      .editNfa 0 (.addTransition 1 (.char 'x') 0), .editNfa 0 (.addTransition 0 .epsilon 2),
      .editNfa 0 (.addTransition 2 .epsilon 0), .newDfa, .editDfa 0 (.addState "s"),
      .editDfa 0 (.setStart 0), .editDfa 0 (.addTransition 0 'x' 0)]).toOption.map
        (fun store => store.nfas.toList.map fun n => (n.start,
          decide (n.subsetLabel (.ofList [0, 2]) = n.subsetLabel (.ofList [1])))) =
          some [(some 0, true)] := by decide +kernel
  -- the run and the two labels are computed, the rest is the theorem
  obtain ⟨store, hstore, hnfas⟩ := Option.map_eq_some_iff.mp hrun
  obtain ⟨n, hn, hfacts⟩ := List.mem_map.mp (hnfas ▸ List.mem_cons_self)
  obtain ⟨hstart, hlabels⟩ := Prod.mk.inj hfacts
  have hfirst : firstError? {} "((a*b)*c)*" = none := by decide
  have hsecond : firstError? { dialect := .parallel } "(a&b)*c" = none := by decide
  obtain ⟨_, ht⟩ := exists_compile_eq_ok hfirst
  obtain ⟨_, ht'⟩ := exists_compile_eq_ok hsecond
  have hok := eq_ok_of_toOption hstore
  obtain ⟨hends, htree⟩ := loops_end hok ht
  exact ⟨store, n, _, _, hok, Array.mem_toList_iff.mp hn, hstart, of_decide_eq_true hlabels, ht,
    ht', hends, htree, (loops_end hok ht').2⟩

end PatternAutomata
