import PatternAutomata.Proofs.Compiled
import PatternAutomata.Proofs.Positions.Exact
import PatternAutomata.Proofs.Thompson.Steps

/-!
# Pattern automata — no two states under one label

States are added by their labels, so a label that was used before would merge two
states without a fault, and change the language. In the automata of a compiled
pattern this does not happen. Each construction is gone through step by step: the
fragments of Thompson's construction with their products, the sets of the subset
construction, and the sets of positions.

## Results

* `constructions_collisionFree` — all constructions of what compiles are made, and each element
  that they add has a label of its own.
-/

namespace PatternAutomata

namespace ParseTree

/-- The table of next positions is made, and the automaton has a state of its own for
every set of positions that is reached. On the way the two passes have an entry for every
node and agree on it, and whatever position is held, what it reads and what comes after it
is there. So no lookup of the direct construction is out of range, and no assertion of it
fails. -/
structure PositionsNew (t : ParseTree) (a : Annotations) (f : FollowTable)
    (first : SortedSet Nat) (direct : Dfa) : Prop where
  annotations_eq : Annotations.ofTree t = .ok a
  nullable_eq : ∀ id < t.nodes.length, ∃ b, a.nullable id = .ok b ∧ a.nullableLast id = .ok b
  follow_eq : FollowTable.ofTree t a = .ok f
  first_eq : a.first t.root = .ok first
  read_eq : ∀ set ∈ f.reachedSets t first, ∀ p ∈ set, ∃ letter next,
    t.letterAt p = .ok letter ∧ f.get p = .ok next
  sets_new : EachNew t.positionsNaming.label (Dfa.addElement t.positionsNaming) Dfa.toStateTable
    { alphabet := .ofList t.symbols } (f.reachedSets t first) direct.toStateTable

/-- The three automata of a tree are made, and no step on the way meets a label in use.
Besides the labels it says of every access that what it looks up is there: nodes have
their operands, states their rows, and positions their entries. -/
structure CollisionFree (t : ParseTree) (n : Nfa) (subsets direct : Dfa) : Prop where
  thompson_eq : t.thompson = .ok n
  ofNfa_eq : Dfa.ofNfa n = .ok subsets
  direct_eq : t.direct = .ok direct
  /-- Every step of Thompson's construction is reached, and finds its node ready. -/
  ready : ∀ before top after, t.nodes = before ++ top :: after →
    ∃ slots w, (Workshop.nodes #[] 0 before).run {} = .ok (slots, w) ∧
      Workshop.Ready slots w top
  start : ∃ s, n.start = some s
  /-- Every state has a row of transitions, so that every set is led on by every letter. -/
  size_rows : n.rows.size = n.stateCount
  initialSet_eq : n.initialSet = .ok n.initial
  step_eq : ∀ set ∈ n.subsets, ∀ c, n.step set c = .ok (n.after set c)
  subsets_new : EachNew n.subsetLabel (Dfa.addElement n.subsetNaming) Dfa.toStateTable
    { alphabet := n.alphabet } n.subsets subsets.toStateTable
  /-- With interleavings the table of next positions would be refused, and is not asked for. -/
  direct_shuffled : t.hasShuffle = true →
    direct = subsets ∧ ∀ a f, FollowTable.ofTree t a ≠ .ok f
  direct_sequential : t.hasShuffle = false → ∃ a f first, t.PositionsNew a f first direct

variable {pattern : String} {d : Dialect} {body : Expr Char}

/-- Each position of a tree has a letter. Positions are counted from one. -/
theorem exists_letterAt {t : ParseTree} {p : Nat} (hpos : 1 ≤ p) (hle : p ≤ t.endPosition) :
    ∃ letter, t.letterAt p = .ok letter := by
  obtain ⟨i, rfl⟩ := Nat.exists_eq_add_of_le' hpos
  refine ⟨t.positions[i], ?_⟩
  rw [letterAt, Array.getElem?_eq_getElem hle]
  rfl

/-- Without interleavings everything that the direct construction reads is in range: the
annotations of nodes, which are exact, and the entries of positions that are held. -/
theorem exists_positionsNew (hshuffle : (ofExpr pattern d body).hasShuffle = false) :
    ∃ a f first direct, (ofExpr pattern d body).positionAutomaton = .ok direct ∧
      (ofExpr pattern d body).PositionsNew a f first direct := by
  obtain ⟨a, f, first, direct, hdirect, hsearch, -⟩ := exists_positionAutomaton hshuffle
  refine ⟨a, f, first, direct, hdirect, {
    annotations_eq := hsearch.annotations
    nullable_eq := fun id hid => ?_
    follow_eq := hsearch.follow
    first_eq := hsearch.first
    read_eq := fun set hset p hp => ?_
    sets_new := hsearch.search.eachNew hsearch.proper }⟩
  · -- exact annotations of both passes say the same of the empty sequence
    obtain ⟨b, hfront, hback, -⟩ := (hsearch.exact.answers hid).nullable
    exact ⟨b, hfront, hback⟩
  · -- a position that is held is one of the tree, so it has a letter and an entry
    obtain ⟨hpos, hle⟩ := hsearch.in_range set hset p hp
    obtain ⟨letter, hletter⟩ := exists_letterAt hpos hle
    have hentry : p ≤ f.length := hsearch.length_eq ▸ hle
    exact ⟨letter, f.nexts p, hletter, FollowTable.get_eq_ok hpos hentry⟩

/-- With interleavings the direct automaton is the subset automaton, and the table of next
positions is never asked for; without them it is the position automaton. -/
theorem exists_direct_new {n : Nfa} {subsets : Dfa}
    (hn : (ofExpr pattern d body).thompson = .ok n) (hsubsets : Dfa.ofNfa n = .ok subsets) :
    ∃ direct, (ofExpr pattern d body).direct = .ok direct ∧
      ((ofExpr pattern d body).hasShuffle = true → direct = subsets ∧
        ∀ a f, FollowTable.ofTree (ofExpr pattern d body) a ≠ .ok f) ∧
      ((ofExpr pattern d body).hasShuffle = false →
        ∃ a f first, (ofExpr pattern d body).PositionsNew a f first direct) := by
  cases hshuffle : (ofExpr pattern d body).hasShuffle with
  | true =>
    exact ⟨subsets, direct_eq_ofNfa hshuffle hn hsubsets,
      fun _ => ⟨rfl, fun _ _ => FollowTable.ofTree_ne_ok hshuffle⟩, nofun⟩
  | false =>
    obtain ⟨a, f, first, direct, hdirect, hnew⟩ := exists_positionsNew hshuffle
    exact ⟨direct, direct_eq_positionAutomaton hshuffle hdirect, nofun,
      fun _ => ⟨a, f, first, hnew⟩⟩

/-- The parts of the three constructions, put together. What each of them needs is known
of every tree of an expression. -/
theorem exists_collisionFree (pattern : String) (d : Dialect) (body : Expr Char) :
    ∃ n subsets direct, (ofExpr pattern d body).CollisionFree n subsets direct := by
  obtain ⟨n, hi, hn, hmade⟩ := thompson_ofExpr pattern d body
  have hfragment := hmade.fragment
  obtain ⟨s, hs⟩ := hfragment.start
  -- the names of fragments keep apart the labels of sets of their states
  have hdistinct : n.SubsetsDistinct :=
    Nfa.subsetsDistinct_of_names hfragment.valid fun _ hlt => hfragment.nameOf hlt
  obtain ⟨subsets, hsubsets, hsubsetsNew⟩ :=
    Dfa.exists_ofNfa_eachNew hfragment.valid hdistinct hs
  obtain ⟨direct, hdirect, hshuffled, hsequential⟩ := exists_direct_new hn hsubsets
  exact ⟨n, subsets, direct, {
    thompson_eq := hn
    ofNfa_eq := hsubsets
    direct_eq := hdirect
    ready := fun _ _ _ => exists_ready
    start := ⟨s, hs⟩
    size_rows := hfragment.valid.size_rows
    initialSet_eq := Nfa.initialSet_eq hfragment.valid
    step_eq := fun _ hset c =>
      Nfa.step_eq hfragment.valid (Nfa.lt_of_mem_subsets hfragment.valid hset) c
    subsets_new := hsubsetsNew
    direct_shuffled := hshuffled
    direct_sequential := hsequential }⟩

end ParseTree

/-- **No collisions and no faults**: all constructions of a pattern that compiles are
made, everything they look up is there, and no label that they give to an element was in
use. So no two fragments are merged by chance, and each set and each pair has a state of
its own. -/
theorem constructions_collisionFree {o : Options} {pattern : String} {t : ParseTree}
    (h : compile o pattern = .ok t) :
    ∃ n subsets direct, t.CollisionFree n subsets direct := by
  obtain ⟨body, -, rfl⟩ := compile_eq_ok_iff.mp h
  exact ParseTree.exists_collisionFree pattern o.dialect body

/-- With interleavings inside one another, and without any. -/
theorem constructions_collisionFree_nested_and_plain :
    (∃ t, compile { dialect := .parallel } "((a&b)*&c|d)&a" = .ok t ∧
      ∃ n subsets direct, t.CollisionFree n subsets direct) ∧
    ∃ t, compile {} "(a|b)*c" = .ok t ∧
      ∃ n subsets direct, t.CollisionFree n subsets direct := by
  have hscan : firstError? { dialect := .parallel } "((a&b)*&c|d)&a" = none := by decide
  have hscan' : firstError? {} "(a|b)*c" = none := by decide
  obtain ⟨body, h⟩ := exists_compile_eq_ok hscan
  obtain ⟨body', h'⟩ := exists_compile_eq_ok hscan'
  exact ⟨⟨_, h, constructions_collisionFree h⟩, _, h', constructions_collisionFree h'⟩

end PatternAutomata
