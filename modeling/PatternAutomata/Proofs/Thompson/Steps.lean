import PatternAutomata.Proofs.Automaton.EachNew
import PatternAutomata.Proofs.Positions.Sequences
import PatternAutomata.Proofs.Thompson.Fragments

/-!
# Pattern automata — every step of Thompson's construction

A step of the construction relies on what the steps before it left behind. Its
children's fragments have to be in their slots and to have starts; fragments that
are merged must not share a label, fresh labels must not be in use, and no two
pairs of a product may have the same label. `Ready` says so for one node and the
slots and the counter at its turn.

The construction gets to every node of an expression, and every node is ready at
its turn. This is an induction on the expression: the nodes of an operand come
first and are ready on their own, and the fragments that they leave are those
that the top node needs.

## Results

* `Made.ready_star`, `Made.ready_concat`, `Made.ready_union`, `Made.ready_shuffle` — what is
  made of the children makes a node ready.
* `allReady`             — every node of an expression is ready at its turn.
* `ParseTree.exists_ready` — so is every node of a pattern's tree.
-/

namespace PatternAutomata

namespace Workshop

/-- The fragments of two children can be taken one after the other, and have starts. Each of
their states has a row of transitions, so that no row is missing when they are put together. -/
structure Operands (slots : Slots Nfa) (i j : Nat) (left right : Nfa) (s t : Nat) : Prop where
  take_left : (slots.take i).1 = some left
  take_right : ((slots.take i).2.take j).1 = some right
  start_left : left.start = some s
  start_right : right.start = some t
  rows_left : left.rows.size = left.stateCount
  rows_right : right.rows.size = right.stateCount

/-- The product of two fragments is made: of each pair that is reached both members have
transitions to be read, and the label of each pair is a new one. -/
structure ProductReady (left right : Nfa) (s t : Nat) (product : Nfa) : Prop where
  interleave_eq : left.interleave right = .ok product
  moves_eq : ∀ p ∈ Nfa.reachedPairs left right (s, t), ∃ lefts rights,
    left.moves p.1 = .ok lefts ∧ right.moves p.2 = .ok rights
  pairs_new : EachNew (Nfa.pairLabel left right) (Nfa.addPair left right) Nfa.toStateTable
    { alphabet := left.alphabet ∪ right.alphabet } (Nfa.reachedPairs left right (s, t))
    product.toStateTable

/-- Nothing is in the way of a node at its turn: what it takes is there, what it reads of it is
in range, and what it adds has labels of its own. -/
def Ready (slots : Slots Nfa) (w : Workshop) : Node → Prop
  | .char _ _ | .epsilon | .endMarker _ => True
  | .star e => ∃ body s, (slots.take e).1 = some body ∧ body.start = some s ∧
      body.rows.size = body.stateCount ∧ Free body w.next
  | .concat l r => ∃ left right s t, Operands slots l r left right s t ∧
      left.labels.firstShared? right.labels = none
  | .union l r => ∃ left right s t, Operands slots l r left right s t ∧
      left.labels.firstShared? right.labels = none ∧ Free left w.next ∧ Free right w.next
  | .shuffle l r => ∃ left right s t product, Operands slots l r left right s t ∧
      ProductReady left right s t product

variable {e l r : Expr (Letter × Nat)} {slots : Slots Nfa} {w : Workshop} {n m : Nfa}
  {lo mid i j s t : Nat}

-- ---------------------------------------------------------------------------
-- Single nodes
-- ---------------------------------------------------------------------------

theorem Made.ready_star (hn : Made e lo n w.next) (htake : (slots.take i).1 = some n) :
    Ready slots w (.star i) := by
  obtain ⟨s, hs⟩ := hn.fragment.start
  exact ⟨n, s, htake, hs, hn.fragment.valid.size_rows, hn.fragment.free⟩

/-- A concatenation is ready if its operands were made one after the other: they share no
label. -/
theorem Made.ready_concat (hn : Made l lo n mid) (hm : Made r mid m w.next)
    (hops : Operands slots i j n m s t) : Ready slots w (.concat i j) :=
  ⟨n, m, s, t, hops, (hn.fragment.mergeable hm.fragment).firstShared?⟩

/-- So is a union, and the next labels are fresh for both operands. -/
theorem Made.ready_union (hn : Made l lo n mid) (hm : Made r mid m w.next)
    (hops : Operands slots i j n m s t) : Ready slots w (.union i j) := by
  have hfree : Free n w.next := fun k hk => hn.fragment.free k (Nat.le_trans hm.fragment.le hk)
  exact ⟨n, m, s, t, hops, (hn.fragment.mergeable hm.fragment).firstShared?, hfree,
    hm.fragment.free⟩

/-- So is an interleaving: no row that its search reads is missing, and every pair gets a
state. -/
theorem Made.ready_shuffle (hn : Made l lo n mid) (hm : Made r mid m w.next)
    (hops : Operands slots i j n m s t) : Ready slots w (.shuffle i j) := by
  have hleft := hn.fragment
  have hright := hm.fragment
  obtain ⟨product, hrun, hproduct⟩ :=
    hleft.exists_interleave hright hops.start_left hops.start_right
  have hstart : Nfa.HasPair n m (s, t) :=
    ⟨hleft.valid.start_lt s hops.start_left, hright.valid.start_lt t hops.start_right⟩
  refine ⟨n, m, s, t, product, hops, { interleave_eq := hrun, moves_eq := ?_, pairs_new := ?_ }⟩
  · intro p hp
    have hexist := Nfa.hasPair_of_mem_reachedPairs hleft.valid hright.valid hstart hp
    exact ⟨_, _, Nfa.moves_eq hleft.valid hexist.1, Nfa.moves_eq hright.valid hexist.2⟩
  · exact hproduct.eachNew hleft.valid hright.valid hstart
      (hleft.distinct hright hops.start_left hops.start_right)

-- ---------------------------------------------------------------------------
-- Along an expression
-- ---------------------------------------------------------------------------

/-- The construction goes through the nodes of `e`, and goes on with its fragment in the slot
of the root. -/
theorem exists_run_nodes (e : Expr (Letter × Nat)) (slots : Slots Nfa) (w : Workshop) :
    ∃ n w', Made e w.next n w'.next ∧ ∀ rest,
      (nodes slots slots.size (e.nodes slots.size ++ rest)).run w =
        (nodes (slots ++ Slots.finished (e.size - 1) n) (slots.size + e.size) rest).run w' := by
  obtain ⟨n, w', hrun, hmade⟩ := exists_made e w
  refine ⟨n, w', hmade, fun rest => ?_⟩
  rw [follows_ofExpr, StateT.run_bind, hrun, ok_bind]

/-- The construction gets to every node of `e`, and finds it ready. -/
def AllReady (e : Expr (Letter × Nat)) : Prop :=
  ∀ (slots : Slots Nfa) (w : Workshop) (before : List Node) (top : Node) (after : List Node),
    e.nodes slots.size = before ++ top :: after →
      ∃ slots' w', (nodes slots slots.size before).run w = .ok (slots', w') ∧
        Ready slots' w' top

/-- A leaf needs nothing. -/
theorem allReady_leaf {top : Node} (hnodes : ∀ id, e.nodes id = [top])
    (hready : ∀ slots w, Ready slots w top) : AllReady e := by
  intro slots w before top' after h
  rw [hnodes] at h
  obtain ⟨rfl, rfl⟩ := eq_nil_of_singleton_eq_append_cons h
  exact ⟨slots, w, rfl, hready slots w⟩

/-- Above two operands, a node of the list is one of the left operand, one of the right
operand or the top node itself. The first two are ready on their own, whatever slots come
before. -/
theorem AllReady.binary {top : Nat → Nat → Node} (hl : AllReady l) (hr : AllReady r)
    (hnodes : ∀ id, e.nodes id = l.nodes id ++ (r.nodes (id + l.size) ++
      [top (id + l.size - 1) (id + l.size + r.size - 1)]))
    (hready : ∀ {slots : Slots Nfa} {w : Workshop} {n m : Nfa} {lo mid i j s t : Nat},
      Made l lo n mid → Made r mid m w.next → Operands slots i j n m s t →
        Ready slots w (top i j)) : AllReady e := by
  intro slots w before top' after h
  have hlpos := l.size_pos
  have hrpos := r.size_pos
  obtain ⟨n, w₁, hn, hleft⟩ := exists_run_nodes l slots w
  obtain ⟨m, w₂, hm, hright⟩ :=
    exists_run_nodes r (slots ++ Slots.finished (l.size - 1) n) w₁
  have hsize : (slots ++ Slots.finished (l.size - 1) n).size = slots.size + l.size := by
    rw [Array.size_append, Slots.size_finished]
    omega
  rw [hsize] at hright
  rw [hnodes] at h
  -- where in the list the node stands
  rcases append_eq_append_cons h with ⟨v, hv, -⟩ | ⟨u, rfl, hu⟩
  · exact hl slots w before top' v hv
  rw [hleft]
  rcases append_eq_append_cons hu with ⟨v, hv, -⟩ | ⟨u', rfl, hu'⟩
  · have hinside := hr (slots ++ Slots.finished (l.size - 1) n) w₁ u top' v
    rw [hsize] at hinside
    exact hinside hv
  -- both operands are finished, and the node itself is next
  obtain ⟨rfl, rfl⟩ := eq_nil_of_singleton_eq_append_cons hu'
  obtain ⟨s, hs⟩ := hn.fragment.start
  obtain ⟨t, ht⟩ := hm.fragment.start
  obtain ⟨rest, hfirst, hsecond⟩ :=
    Slots.take_finished_two slots (l.size - 1) (r.size - 1) n m
  rw [show slots.size + (l.size - 1) = slots.size + l.size - 1 by omega] at hfirst
  rw [show slots.size + (l.size - 1 + 1) + (r.size - 1) = slots.size + l.size + r.size - 1
    by omega] at hsecond
  rw [hright]
  refine ⟨_, w₂, rfl, hready hn hm {
    take_left := congrArg Prod.fst hfirst
    take_right := ?_
    start_left := hs
    start_right := ht
    rows_left := hn.fragment.valid.size_rows
    rows_right := hm.fragment.valid.size_rows }⟩
  rw [hfirst]
  exact congrArg Prod.fst hsecond

/-- Above one operand, a node is one of the body or the repetition itself, which comes
when the body's fragment is in its slot. -/
theorem AllReady.star (he : AllReady e) : AllReady (.star e) := by
  intro slots w before top after h
  have hpos := e.size_pos
  obtain ⟨n, w₁, hn, hrun⟩ := exists_run_nodes e slots w
  unfold Expr.nodes at h
  rcases append_eq_append_cons h with ⟨v, hv, -⟩ | ⟨u, rfl, hu⟩
  · exact he slots w before top v hv
  obtain ⟨rfl, rfl⟩ := eq_nil_of_singleton_eq_append_cons hu
  have htake := Slots.take_finished_last slots (e.size - 1) n
  rw [show slots.size + (e.size - 1) = slots.size + e.size - 1 by omega] at htake
  rw [hrun]
  exact ⟨_, w₁, rfl, hn.ready_star (congrArg Prod.fst htake)⟩

/-- Every node of an expression is ready at its turn, by induction on the expression. The
slots before it and the counter may be any. -/
theorem allReady (e : Expr (Letter × Nat)) : AllReady e := by
  induction e with
  | epsilon => exact allReady_leaf (fun _ => rfl) fun _ _ => trivial
  | leaf a =>
    obtain ⟨_ | _, p⟩ := a <;> exact allReady_leaf (fun _ => rfl) fun _ _ => trivial
  | concat l r ihl ihr => exact ihl.binary ihr (fun _ => rfl) Made.ready_concat
  | union l r ihl ihr => exact ihl.binary ihr (fun _ => rfl) Made.ready_union
  | shuffle l r ihl ihr => exact ihl.binary ihr (fun _ => rfl) Made.ready_shuffle
  | star e ih => exact ih.star

end Workshop

/-- Every node of a pattern's tree is ready at its turn. -/
theorem ParseTree.exists_ready {pattern : String} {d : Dialect} {body : Expr Char}
    {before after : List Node} {top : Node}
    (h : (ofExpr pattern d body).nodes = before ++ top :: after) :
    ∃ slots w, (Workshop.nodes #[] 0 before).run {} = .ok (slots, w) ∧
      Workshop.Ready slots w top := by
  rw [nodes_ofExpr] at h
  exact Workshop.allReady body.marked #[] {} before top after h

end PatternAutomata
