import PatternAutomata.Proofs.Positions.Follow
import PatternAutomata.Proofs.Positions.Next
import PatternAutomata.Proofs.Thompson.Counter
import PatternAutomata.Proofs.Thompson.Reached
import PatternAutomata.Proofs.Thompson.Steps
import PatternAutomata.Thompson.Sources

/-!
# Pattern automata — the states in front of positions

Where nothing is interleaved, the fragment of a leaf ends up in the whole
automaton with its labels. The state it starts with is the one in front of the
leaf: a word leads there exactly if the leaf can be read next after the word. Both
sides follow the same recursion, the left one through the combinators and the
right one through the operators, and the label is found by counting the labels
that were taken before the leaf's turn.

## Results

* `Made.exists_source`        — every leaf has a state in front of it.
* `ParseTree.exists_sourceOf` — the state is the one found through the leaf's fragment.
-/

namespace PatternAutomata

namespace Workshop

variable {e l r : Expr (Letter × Nat)} {lo mid hi base p x : Nat} {n m y : Nfa} {name : String}
  {before after : List Node} {leaf top : Node}

-- ---------------------------------------------------------------------------
-- Leaves of operands
-- ---------------------------------------------------------------------------

/-- A leaf of two operands is a leaf of one of them, as the node that joins them is none.
In the right operand, all nodes of the left one come before it. -/
theorem leaf_of_binary (htop : top.position? = none) (hp : leaf.position? = some p)
    (h : l.nodes base ++ (r.nodes (base + l.size) ++ [top]) = before ++ leaf :: after) :
    (∃ after', l.nodes base = before ++ leaf :: after') ∨
      ∃ before' after', before = l.nodes base ++ before' ∧
        r.nodes (base + l.size) = before' ++ leaf :: after' := by
  rcases append_eq_append_cons h with ⟨after', hl, -⟩ | ⟨before', rfl, hrest⟩
  · exact .inl ⟨after', hl⟩
  · rcases append_eq_append_cons hrest with ⟨after', hr, -⟩ | ⟨_, -, hlast⟩
    · exact .inr ⟨before', after', rfl, hr⟩
    · obtain ⟨-, rfl⟩ := eq_nil_of_singleton_eq_append_cons hlast
      exact nomatch htop.symm.trans hp

theorem mem_numbers_of_split (hp : leaf.position? = some p)
    (h : e.nodes base = before ++ leaf :: after) : p ∈ e.numbers := by
  have hmem : leaf ∈ e.nodes base := by simp [h]
  exact mem_numbers_of_mem_nodes hmem hp

/-- `x` is the state in front of position `p`, and `name` its label: a word leads there
exactly if `p` can be read next after it. -/
structure IsSource (e : Expr (Letter × Nat)) (n : Nfa) (p : Nat) (name : String) (x : Nat) :
    Prop where
  label_eq : n.labels.toList[x]? = some name
  leadsTo_iff : ∀ w, n.LeadsTo w x ↔ e.ComesNext w p

namespace IsSource

theorem lt_stateCount (hx : IsSource e n p name x) : x < n.stateCount := lt_of_label hx.label_eq

/-- In a concatenation, the left operand's leaves are reached as there alone. The position
must not be in the right operand, where it could be read after other words. -/
theorem concat_left (hl : Fragment l lo n mid) (h : IsConcat n m y) (hseq : l.Sequential)
    (hp : p ∉ r.numbers) (hx : IsSource l n p name x) : IsSource (.concat l r) y p name x where
  label_eq := h.label_left hx.label_eq
  leadsTo_iff w := by
    rw [h.leadsTo_left_iff hl.valid hx.lt_stateCount, hx.leadsTo_iff,
      Expr.comesNext_concat_iff hseq]
    refine (or_iff_left ?_).symm
    rintro ⟨u, v, -, hv, -⟩
    exact hp hv.mem_numbers

/-- Before the right operand's leaves, a word of the left operand is read. A position of
the right operand is none of the left one's, so it is found in one of the two only. -/
theorem concat_right (hl : Fragment l lo n mid) (h : IsConcat n m y) (hseq : l.Sequential)
    (hp : p ∉ l.numbers) (hx : IsSource r m p name x) :
    IsSource (.concat l r) y p name (x + n.stateCount) where
  label_eq := h.label_right hx.label_eq
  leadsTo_iff w := by
    rw [h.leadsTo_right_iff hl.valid, Expr.comesNext_concat_iff hseq]
    simp only [hl.accepting, hx.leadsTo_iff]
    exact (or_iff_right fun hin => hp hin.mem_numbers).symm

/-- In a union, the left operand's leaves are reached as there alone. -/
theorem union_left (hl : n.Valid) (hr : m.Valid) (h : IsUnion n m hi y) (hp : p ∉ r.numbers)
    (hx : IsSource l n p name x) : IsSource (.union l r) y p name x where
  label_eq := h.label_left hx.label_eq
  leadsTo_iff w := by
    rw [h.leadsTo_left_iff hl hr hx.lt_stateCount, hx.leadsTo_iff, Expr.comesNext_union_iff]
    exact (or_iff_left fun hin => hp hin.mem_numbers).symm

/-- And so are the right operand's. -/
theorem union_right (hl : n.Valid) (hr : m.Valid) (h : IsUnion n m hi y) (hp : p ∉ l.numbers)
    (hx : IsSource r m p name x) : IsSource (.union l r) y p name (x + n.stateCount) where
  label_eq := h.label_right hx.label_eq
  leadsTo_iff w := by
    rw [h.leadsTo_right_iff hl hr hx.lt_stateCount, hx.leadsTo_iff, Expr.comesNext_union_iff]
    exact (or_iff_right fun hin => hp hin.mem_numbers).symm

/-- In a repetition, some rounds are read before. -/
theorem star (hm : Fragment e lo n hi) (h : IsStar n hi y) (hseq : e.Sequential)
    (hx : IsSource e n p name x) : IsSource (.star e) y p name x where
  label_eq := h.label hx.label_eq
  leadsTo_iff w := by
    rw [h.leadsTo_iff hm.valid hx.lt_stateCount, Expr.comesNext_star_iff (e := e) hseq]
    simp only [Repeated, hm.accepting, hx.leadsTo_iff]

end IsSource

/-- At the turn of a node of the right operand, the left one has taken its labels. -/
theorem Made.add_labelsOf_append (h : Made e lo n hi) (base : Nat) (list : List Node) :
    lo + Node.labelsOf (e.nodes base ++ list) = hi + Node.labelsOf list := by
  rw [Node.labelsOf_append, ← Nat.add_assoc, ← h.eq_add_labels base]

/-- A leaf that is listed behind the nodes `before` has a state in front of it, and its
label is the fresh one at the leaf's turn. The induction is on how the fragment was made;
in which operand the leaf is decides which lemma on operands applies. -/
theorem Made.exists_source (h : Made e lo n hi) (hseq : e.Sequential) (hnodup : e.numbers.Nodup)
    (hp : leaf.position? = some p) (hsplit : e.nodes base = before ++ leaf :: after) :
    ∃ x, IsSource e n p (freshLabel (lo + Node.labelsOf before)) x := by
  induction h generalizing base before after with
  | epsilon =>
    obtain ⟨-, rfl⟩ := eq_nil_of_singleton_eq_append_cons hsplit
    exact nomatch hp
  | char h | endMarker h =>
    obtain ⟨rfl, rfl⟩ := eq_nil_of_singleton_eq_append_cons hsplit
    refine ⟨0, by rw [h.labels]; rfl, fun w => ?_⟩
    rw [h.leadsTo_zero_iff, Expr.comesNext_leaf_iff]
    exact (and_iff_left (Option.some.inj hp)).symm
  | concat hl hr h ihl ihr =>
    obtain ⟨hnl, hnr, hapart⟩ := Expr.nodup_numbers_binary hnodup
    -- the leaf is on the left, or on the right behind all nodes of the left operand
    rcases leaf_of_binary rfl hp hsplit with ⟨after', hin⟩ | ⟨before', after', rfl, hin⟩
    · obtain ⟨x, hx⟩ := ihl hseq.1 hnl hin
      have hnot := hapart p (mem_numbers_of_split hp hin)
      exact ⟨x, hx.concat_left hl.fragment h hseq.1 hnot⟩
    · obtain ⟨x, hx⟩ := ihr hseq.2 hnr hin
      have hnot := fun hmem => hapart p hmem (mem_numbers_of_split hp hin)
      rw [hl.add_labelsOf_append]
      exact ⟨_, hx.concat_right hl.fragment h hseq.1 hnot⟩
  | union hl hr h ihl ihr =>
    obtain ⟨hnl, hnr, hapart⟩ := Expr.nodup_numbers_binary hnodup
    have hvl := hl.fragment.valid
    have hvr := hr.fragment.valid
    rcases leaf_of_binary rfl hp hsplit with ⟨after', hin⟩ | ⟨before', after', rfl, hin⟩
    · obtain ⟨x, hx⟩ := ihl hseq.1 hnl hin
      have hnot := hapart p (mem_numbers_of_split hp hin)
      exact ⟨x, hx.union_left hvl hvr h hnot⟩
    · obtain ⟨x, hx⟩ := ihr hseq.2 hnr hin
      have hnot := fun hmem => hapart p hmem (mem_numbers_of_split hp hin)
      rw [hl.add_labelsOf_append]
      exact ⟨_, hx.union_right hvl hvr h hnot⟩
  | shuffle => exact absurd hseq id
  | star hm h ih =>
    -- the leaf is not the node of the repetition itself
    rcases append_eq_append_cons hsplit with ⟨after', hin, -⟩ | ⟨_, -, hlast⟩
    · obtain ⟨x, hx⟩ := ih hseq hnodup hin
      exact ⟨x, hx.star hm.fragment h hseq⟩
    · obtain ⟨-, rfl⟩ := eq_nil_of_singleton_eq_append_cons hlast
      exact nomatch hp

-- ---------------------------------------------------------------------------
-- Fragments of leaves
-- ---------------------------------------------------------------------------

variable {slots slots' : Slots Nfa} {w w' : Workshop} {id : Nat}

/-- Two lists of nodes in turn, the second one numbered on from the first. Slots and
workshop are handed over as they are. -/
theorem nodes_append (list more : List Node) :
    nodes slots id (list ++ more) =
      nodes slots id list >>= fun slots => nodes slots (id + list.length) more := by
  induction list generalizing slots id with
  | nil => exact (pure_bind ..).symm
  | cons first rest ih =>
    rw [List.cons_append, nodes_cons, nodes_cons, bind_assoc]
    refine congrArg (node slots id first >>= ·) (funext fun slots => ?_)
    rw [ih, List.length_cons, Nat.add_assoc, Nat.add_comm 1]

/-- After a leaf's turn, the last slot holds a fragment that starts with a fresh label:
the one at which the counter was before. -/
theorem exists_run_leaf (hp : leaf.position? = some p)
    (h : (nodes slots id before).run w = .ok (slots', w')) :
    ∃ made w₁, (nodes slots id (before ++ [leaf])).run w = .ok (Slots.push slots' made, w₁) ∧
      made.start = some 0 ∧ made.label 0 = .ok (freshLabel w'.next) := by
  -- both kinds of leaves make an atom
  obtain ⟨a, ha⟩ : ∃ a, ∀ slots id, node slots id leaf =
      do return Slots.push slots (← atom a) := by
    cases leaf with
    | char c _ => exact ⟨.char c, fun _ _ => rfl⟩
    | endMarker _ => exact ⟨.epsilon, fun _ _ => rfl⟩
    | _ => exact nomatch hp
  obtain ⟨made, hrun, hatom⟩ := run_atom a w'
  refine ⟨made, { w' with next := w'.next + 2 }, ?_, hatom.start, ?_⟩
  · rw [nodes_append, StateT.run_bind, h, ok_bind, nodes_cons, ha, StateT.run_bind, StateT.run_bind,
      hrun]
    rfl
  · rw [StateTable.label_eq_ok (by rw [hatom.stateCount]; omega), StateTable.nameOf, hatom.labels]
    rfl

end Workshop

namespace ParseTree

open Workshop

variable {pattern : String} {d : Dialect} {body : Expr Char} {n : Nfa} {hi p : Nat}

/-- The leaf of a position splits the list of nodes, at the first leaf with that
position. -/
theorem exists_leafPlace {t : ParseTree} (hp : ∃ node ∈ t.nodes, node.position? = some p) :
    ∃ i leaf, t.leafPlace? p = some i ∧ leaf.position? = some p ∧
      t.nodes = t.nodes.take i ++ leaf :: t.nodes.drop (i + 1) ∧
      t.nodes.take (i + 1) = t.nodes.take i ++ [leaf] := by
  obtain ⟨node, hnode, hposition⟩ := hp
  obtain ⟨i, hplace⟩ : ∃ i, t.leafPlace? p = some i :=
    Option.isSome_iff_exists.mp (List.findIdx?_isSome.trans
      (List.any_eq_true.mpr ⟨node, hnode, decide_eq_true hposition⟩))
  obtain ⟨hlt, hleaf, -⟩ := List.findIdx?_eq_some_iff_getElem.mp hplace
  refine ⟨i, t.nodes[i], hplace, of_decide_eq_true hleaf, ?_, ?_⟩
  · rw [← List.drop_eq_getElem_cons hlt, List.take_append_drop]
  · rw [List.take_add_one, List.getElem?_eq_getElem hlt]
    rfl

/-- The fragment of a position's leaf starts with a fresh label, and the state of the whole
automaton with this label is the one in front of the position. -/
theorem exists_sourceOf (hn : Made body.marked 0 n hi)
    (hshuffle : (ofExpr pattern d body).hasShuffle = false) (hp : p ∈ body.marked.numbers) :
    ∃ x < n.stateCount, (ofExpr pattern d body).sourceOf n p = .ok (some x) ∧
      ∀ w, n.LeadsTo w x ↔ body.marked.ComesNext w p := by
  obtain ⟨i, leaf, hplace, hposition, hsplit, htake⟩ :=
    exists_leafPlace (t := ofExpr pattern d body) (by
      rw [nodes_ofExpr]
      exact (mem_numbers_iff 0).mp hp)
  obtain ⟨slots, w, hrun, -⟩ := exists_ready hsplit
  obtain ⟨made, w', hrun', hstart, hlabel⟩ := exists_run_leaf hposition hrun
  have hatom : (ofExpr pattern d body).atomOf p = .ok (some made) := by
    unfold atomOf
    rw [hplace]
    dsimp only
    rw [htake, hrun', ok_bind]
    dsimp only
    rw [Slots.push, Array.back?_push]
    rfl
  -- so the fresh label is the one that counting the nodes before the leaf gives
  have hcounter : w.next = 0 + _ := takes_nodes _ _ _ _ _ _ hrun
  rw [nodes_ofExpr] at hsplit hcounter
  obtain ⟨x, hx⟩ := hn.exists_source (hasShuffle_ofExpr_iff.mp hshuffle) nodup_numbers_marked
    hposition hsplit
  rw [← hcounter] at hx
  refine ⟨x, lt_of_label hx.label_eq, ?_, hx.leadsTo_iff⟩
  unfold sourceOf
  rw [hatom, ok_bind]
  dsimp only
  rw [hstart]
  dsimp only
  rw [hlabel, ok_bind, StateTable.find?_eq_some_iff.mpr hx.label_eq]
  rfl

end ParseTree

end PatternAutomata
