import PatternAutomata.ParseTree.Language
import PatternAutomata.Proofs.Thompson.Language

/-!
# Pattern automata — Thompson's construction as a recursion

The construction goes along a list of nodes and keeps the fragments of finished
subtrees in slots. Along the nodes of an expression no child is ever lost, and
what happens is a recursion on the expression (`ofExpr`). `Made` says which
combinators put a fragment together, and in which range of numbers its fresh
labels lie.

Labels of fragments are names of states over these numbers. Since the numbers of
two operands are apart, no label is shared; since names of pairs can be read
back, no two pairs of a product have the same one.

## Results

* `follows_ofExpr`  — the construction along the nodes of an expression is the recursion.
* `Made.fragment`   — what holds of every fragment (`Fragment`), its language included.
* `exists_made`     — the recursion makes a fragment of every expression.
* `thompson_ofExpr` — so does the construction along the tree of a pattern.
-/

namespace PatternAutomata

-- ---------------------------------------------------------------------------
-- Slots
-- ---------------------------------------------------------------------------

namespace Slots

variable {β : Type}

/-- The slots of a finished subtree of `k + 1` nodes: only its root holds a result. -/
def finished (k : Nat) (b : β) : Slots β := (Array.replicate k none).push (some b)

@[simp] theorem size_finished (k : Nat) (b : β) : (finished k b).size = k + 1 := by
  simp [finished]

/-- The result of a finished subtree can be taken, and leaves only empty slots. What comes
before it and after it stays. -/
theorem take_finished (before after : Slots β) (k : Nat) (b : β) :
    Slots.take (before ++ finished k b ++ after) (before.size + k) =
      (some b, before ++ Array.replicate (k + 1) none ++ after) := by
  have hget : (before ++ finished k b ++ after)[before.size + k]? = some (some b) := by
    rw [Array.append_assoc, Array.getElem?_append_right (by omega), Nat.add_sub_cancel_left,
      Array.getElem?_append_left (by simp), finished, Array.getElem?_push]
    simp
  -- the slot of the root is emptied, and the subtree's other slots are empty already
  have hleft : Slots.take (before ++ finished k b ++ after) (before.size + k) =
      (some b, (before ++ finished k b ++ after).setIfInBounds (before.size + k) none) :=
    Prod.ext (congrArg Option.join hget) rfl
  rw [hleft, Array.append_assoc, Array.setIfInBounds_append_right (by omega),
    Nat.add_sub_cancel_left, Array.setIfInBounds_append_left (by simp), finished,
    Array.push_eq_append, Array.setIfInBounds_append_right (by simp), Array.size_replicate,
    Nat.sub_self, Array.replicate_succ, Array.push_eq_append]
  simp only [Array.append_assoc]
  rfl

/-- So can the result of the subtree that was finished last. -/
theorem take_finished_last (before : Slots β) (k : Nat) (b : β) :
    Slots.take (before ++ finished k b) (before.size + k) =
      (some b, before ++ Array.replicate (k + 1) none) := by
  have htake := take_finished before #[] k b
  rwa [Array.append_empty, Array.append_empty] at htake

/-- The results of two subtrees in turn can be taken one after the other, and only empty
slots are left. A subtree leaves its result in its last slot, so its size tells where to
look. -/
theorem take_finished_two (before : Slots β) (i j : Nat) (a b : β) :
    ∃ rest, Slots.take (before ++ finished i a ++ finished j b) (before.size + i) =
        (some a, rest) ∧
      Slots.take rest (before.size + (i + 1) + j) =
        (some b, before ++ Array.replicate (i + 1 + (j + 1)) none) := by
  have hempty : before ++ Array.replicate (i + 1) none ++ Array.replicate (j + 1) none =
      before ++ Array.replicate (i + 1 + (j + 1)) none := by
    rw [Array.append_assoc, Array.replicate_append_replicate]
  have hsecond := take_finished_last (before ++ Array.replicate (i + 1) none) j b
  rw [Array.size_append, Array.size_replicate, hempty] at hsecond
  exact ⟨_, take_finished before (finished j b) i a, hsecond⟩

end Slots

namespace Workshop

-- ---------------------------------------------------------------------------
-- Along an expression
-- ---------------------------------------------------------------------------

/-- The construction along an expression. This is the recursion that a list of nodes in
post-order spells out, one step for each node. -/
def ofExpr : Expr (Letter × Nat) → Build Nfa
  | .epsilon | .leaf (.endMarker, _) => atom .epsilon
  | .leaf (.char c, _) => atom (.char c)
  | .concat l r => do concat (← ofExpr l) (← ofExpr r)
  | .union l r => do union (← ofExpr l) (← ofExpr r)
  | .shuffle l r => do shuffle (← ofExpr l) (← ofExpr r)
  | .star e => do star (← ofExpr e)

theorem takeChild_eq {slots rest : Slots Nfa} {n : Nfa} {parent child : Nat}
    (h : slots.take child = (some n, rest)) : takeChild slots parent child = .ok (n, rest) := by
  unfold takeChild
  rw [h]

/-- The two operands of a node are in the slots where they were left, so the node gets
both, and its result goes behind them. -/
theorem binary_eq (combine : Nfa → Nfa → Build Nfa) (slots : Slots Nfa) (i j id : Nat)
    (l r : Nfa) :
    binary combine (slots ++ Slots.finished i l ++ Slots.finished j r) id (slots.size + i)
        (slots.size + (i + 1) + j) =
      combine l r >>= fun n => return slots ++ Slots.finished (i + 1 + (j + 1)) n := by
  obtain ⟨rest, hfirst, hsecond⟩ := Slots.take_finished_two slots i j l r
  unfold binary
  rw [takeChild_eq hfirst, lift_ok_bind]
  dsimp only
  rw [takeChild_eq hsecond, lift_ok_bind]
  refine congrArg (combine l r >>= ·) (funext fun n => congrArg pure ?_)
  exact (Array.append_push ..).symm

theorem nodes_cons {slots : Slots Nfa} {id : Nat} {top : Node} {rest : List Node} :
    nodes slots id (top :: rest) = node slots id top >>= fun slots => nodes slots (id + 1) rest :=
  rfl

/-- Along the nodes of `e`, the construction does what `build` does and leaves the
fragment in the slot of the root. What follows in the list is left to be done, so subtrees
can be put in turn. -/
def Follows (e : Expr (Letter × Nat)) (build : Build Nfa) : Prop :=
  ∀ (slots : Slots Nfa) (rest : List Node),
    nodes slots slots.size (e.nodes slots.size ++ rest) =
      build >>= fun n => nodes (slots ++ Slots.finished (e.size - 1) n) (slots.size + e.size) rest

/-- A leaf is a single node. It takes nothing from the slots, and leaves one result
behind. -/
theorem follows_leaf {e : Expr (Letter × Nat)} {build : Build Nfa} {top : Node}
    (hsize : e.size = 1) (hnodes : ∀ id, e.nodes id = [top])
    (htop : ∀ slots id, node slots id top = do return slots.push (← build)) :
    Follows e build := by
  intro slots rest
  rw [hnodes, List.singleton_append, nodes_cons, htop, bind_assoc, hsize]
  simp only [pure_bind]
  refine congrArg (build >>= ·) (funext fun n => congrArg (nodes · (slots.size + 1) rest) ?_)
  exact Array.push_eq_append ..

/-- The two subtrees of a node are listed one after the other, and then the node itself.
What each of them does is known by then, so all that is left is to count the slots. -/
theorem Follows.binary {e l r : Expr (Letter × Nat)} {combine : Nfa → Nfa → Build Nfa}
    {buildLeft buildRight : Build Nfa} {top : Nat → Nat → Node}
    (hl : Follows l buildLeft) (hr : Follows r buildRight)
    (hsize : e.size = l.size + r.size + 1)
    (hnodes : ∀ id, e.nodes id = l.nodes id ++ (r.nodes (id + l.size) ++
      [top (id + l.size - 1) (id + l.size + r.size - 1)]))
    (htop : ∀ slots id i j, node slots id (top i j) = Workshop.binary combine slots id i j) :
    Follows e (do combine (← buildLeft) (← buildRight)) := by
  intro slots rest
  have hlpos := l.size_pos
  have hrpos := r.size_pos
  rw [hnodes, List.append_assoc, hl, bind_assoc]
  refine congrArg (buildLeft >>= ·) (funext fun n => ?_)
  -- the right subtree begins where the left one has ended
  have hleft : (slots ++ Slots.finished (l.size - 1) n).size = slots.size + l.size := by
    rw [Array.size_append, Slots.size_finished]
    omega
  rw [List.append_assoc, ← hleft, hr, bind_assoc]
  refine congrArg (buildRight >>= ·) (funext fun m => ?_)
  have htake := binary_eq combine slots (l.size - 1) (r.size - 1)
    (slots.size + l.size + r.size) n m
  rw [hleft, List.singleton_append, nodes_cons, htop]
  -- the children's numbers are those of the slots that the two subtrees have filled
  rw [show slots.size + l.size - 1 = slots.size + (l.size - 1) by omega,
    show slots.size + l.size + r.size - 1 = slots.size + (l.size - 1 + 1) + (r.size - 1) by omega,
    htake, bind_assoc]
  simp only [pure_bind]
  rw [hsize, show l.size - 1 + 1 + (r.size - 1 + 1) = l.size + r.size + 1 - 1 by omega,
    show slots.size + l.size + r.size + 1 = slots.size + (l.size + r.size + 1) by omega]

/-- The subtree of a repetition is listed before it, so its result is in the slot before
the node's own. -/
theorem Follows.star {e : Expr (Letter × Nat)} {build : Build Nfa} (he : Follows e build) :
    Follows (.star e) (do Workshop.star (← build)) := by
  intro slots rest
  have hpos := e.size_pos
  unfold Expr.nodes
  rw [List.append_assoc, he, bind_assoc]
  refine congrArg (build >>= ·) (funext fun n => ?_)
  rw [List.singleton_append, nodes_cons, node,
    show slots.size + e.size - 1 = slots.size + (e.size - 1) by omega,
    takeChild_eq (Slots.take_finished_last slots (e.size - 1) n), lift_ok_bind]
  simp only [bind_assoc, pure_bind]
  refine congrArg (Workshop.star n >>= ·) (funext fun m => ?_)
  unfold Slots.push
  rw [Expr.size, Nat.add_assoc, Nat.add_sub_cancel,
    show e.size - 1 + 1 = e.size by omega, Slots.finished, Array.append_push]

/-- The construction along the nodes of an expression is the recursion on the expression.
The induction is on the expression, and its cases are those of a leaf, of two subtrees and
of one. -/
theorem follows_ofExpr (e : Expr (Letter × Nat)) : Follows e (ofExpr e) := by
  induction e with
  | epsilon => exact follows_leaf rfl (fun _ => rfl) (fun _ _ => rfl)
  | leaf a =>
    obtain ⟨_ | _, p⟩ := a <;> exact follows_leaf rfl (fun _ => rfl) (fun _ _ => rfl)
  | concat l r ihl ihr | union l r ihl ihr | shuffle l r ihl ihr =>
    exact ihl.binary ihr rfl (fun _ => rfl) (fun _ _ _ _ => rfl)
  | star e ih => exact ih.star

-- ---------------------------------------------------------------------------
-- Labels of operands
-- ---------------------------------------------------------------------------

section Labels

variable {n m y : Nfa} {name : String} {extra : List String} {x hi : Nat}

theorem IsMerge.label_left (h : IsMerge n m extra y) (hx : n.labels.toList[x]? = some name) :
    y.labels.toList[x]? = some name := by
  obtain ⟨hlt, -⟩ := List.getElem?_eq_some_iff.mp hx
  rw [h.labels, List.append_assoc, List.getElem?_append_left hlt, hx]

/-- A state of the right operand keeps its label, with its number raised. -/
theorem IsMerge.label_right (h : IsMerge n m extra y) (hx : m.labels.toList[x]? = some name) :
    y.labels.toList[x + n.stateCount]? = some name := by
  obtain ⟨hlt, -⟩ := List.getElem?_eq_some_iff.mp hx
  have hcount : n.stateCount = n.labels.toList.length := StateTable.stateCount_eq rfl
  rw [h.labels, List.append_assoc, List.getElem?_append_right (by omega), hcount,
    Nat.add_sub_cancel, List.getElem?_append_left hlt, hx]

theorem IsStar.label (h : IsStar m hi n) (hx : m.labels.toList[x]? = some name) :
    n.labels.toList[x]? = some name := by
  obtain ⟨hlt, -⟩ := List.getElem?_eq_some_iff.mp hx
  rw [h.labels, List.getElem?_append_left hlt, hx]

theorem lt_of_label (hx : n.labels.toList[x]? = some name) : x < n.stateCount := by
  have hcount : n.stateCount = n.labels.toList.length := StateTable.stateCount_eq rfl
  rw [hcount]
  exact (List.getElem?_eq_some_iff.mp hx).1

end Labels

-- ---------------------------------------------------------------------------
-- What is made
-- ---------------------------------------------------------------------------

/-- `Made e lo n hi`: the combinators put `n` together along `e`, with the fresh labels
from number `lo` on and before `hi`. All that is proved of the automaton of a pattern is
proved by induction on this, with no mention of slots or of the workshop. -/
inductive Made : Expr (Letter × Nat) → Nat → Nfa → Nat → Prop
  | epsilon {lo : Nat} {n : Nfa} : IsAtom .epsilon lo n → Made .epsilon lo n (lo + 2)
  | char {c : Char} {p lo : Nat} {n : Nfa} :
      IsAtom (.char c) lo n → Made (.leaf (.char c, p)) lo n (lo + 2)
  | endMarker {p lo : Nat} {n : Nfa} :
      IsAtom .epsilon lo n → Made (.leaf (.endMarker, p)) lo n (lo + 2)
  | concat {l r : Expr (Letter × Nat)} {lo mid hi : Nat} {n m x : Nfa} :
      Made l lo n mid → Made r mid m hi → IsConcat n m x → Made (.concat l r) lo x hi
  | union {l r : Expr (Letter × Nat)} {lo mid hi : Nat} {n m x : Nfa} :
      Made l lo n mid → Made r mid m hi → IsUnion n m hi x → Made (.union l r) lo x (hi + 2)
  | shuffle {l r : Expr (Letter × Nat)} {lo mid hi s t : Nat} {n m x : Nfa} :
      Made l lo n mid → Made r mid m hi → n.start = some s → m.start = some t →
      Nfa.IsProduct n m (s, t) x → Made (.shuffle l r) lo x hi
  | star {e : Expr (Letter × Nat)} {lo hi : Nat} {n x : Nfa} :
      Made e lo n hi → IsStar n hi x → Made (.star e) lo x (hi + 2)

/-- What every fragment is like. The numbers of fresh labels keep operands apart, names of
states keep products from sharing labels, and the language is that of the expression. -/
structure Fragment (e : Expr (Letter × Nat)) (lo : Nat) (n : Nfa) (hi : Nat) : Prop where
  valid : n.Valid
  start : ∃ s, n.start = some s
  le : lo ≤ hi
  names : ∀ x ∈ n.labels.toList, StateName (fun i => lo ≤ i ∧ i < hi) x
  ties_lt : ∀ t ∈ n.ties, t.source < n.stateCount ∧ t.target < n.stateCount
  accepting : ∀ w, n.Accepting w ↔ e.Matches (·.1.reads) w

namespace Fragment

variable {e l r : Expr (Letter × Nat)} {lo mid hi : Nat} {n m x : Nfa}

/-- Labels of higher numbers are still to come. -/
theorem free (h : Fragment e lo n hi) : Free n hi := by
  intro i hi hmem
  obtain ⟨j, hj, rfl⟩ := (h.names _ hmem).numbers_meet (.fresh (P := (· = i)) rfl)
  omega

/-- Fragments of different numbers share no label, so they can be merged. -/
theorem mergeable (hn : Fragment l lo n mid) (hm : Fragment r mid m hi) : Mergeable n m where
  left := hn.valid
  right := hm.valid
  disjoint x hx hx' := by
    obtain ⟨i, hi, hi'⟩ := (hm.names x hx).numbers_meet (hn.names x hx')
    omega
  ties_fit t ht := ⟨.inl (hm.ties_lt t ht).1, .inl (hm.ties_lt t ht).2⟩

/-- All names of states are names over some numbers. -/
theorem nameOf {s : Nat} (h : Fragment e lo n hi) (hs : s < n.stateCount) :
    StateName (fun _ => True) (n.nameOf s) :=
  (h.names _ (StateTable.nameOf_mem hs)).mono fun _ _ => trivial

/-- The pairs of two fragments have different labels, since names can be read back: the
name of a pair falls apart in one way only. -/
theorem distinct {s t : Nat} (hn : Fragment l lo n mid) (hm : Fragment r mid m hi)
    (hs : n.start = some s) (ht : m.start = some t) : Nfa.Distinct n m (s, t) := by
  have horigin : Nfa.HasPair n m (s, t) := ⟨hn.valid.start_lt s hs, hm.valid.start_lt t ht⟩
  intro p hp q hq hname
  have hp' := Nfa.hasPair_of_mem_reachedPairs hn.valid hm.valid horigin hp
  have hq' := Nfa.hasPair_of_mem_reachedPairs hn.valid hm.valid horigin hq
  obtain ⟨hfst, hsnd⟩ := pairText_inj (hn.nameOf hp'.1) (hm.nameOf hp'.2) (hn.nameOf hq'.1)
    (hm.nameOf hq'.2) hname
  exact Prod.ext (StateTable.nameOf_inj hp'.1 hq'.1 hfst) (StateTable.nameOf_inj hp'.2 hq'.2 hsnd)

/-- So they can be interleaved. -/
theorem exists_interleave {s t : Nat} (hn : Fragment l lo n mid) (hm : Fragment r mid m hi)
    (hs : n.start = some s) (ht : m.start = some t) :
    ∃ x, n.interleave m = .ok x ∧ Nfa.IsProduct n m (s, t) x := by
  rw [Nfa.interleave_eq hs ht]
  exact Nfa.interleaveFrom_eq_ok hn.valid hm.valid
    ⟨hn.valid.start_lt s hs, hm.valid.start_lt t ht⟩ (hn.distinct hm hs ht)

/-- The two labels that a combinator takes are names. -/
theorem freshNames (hi : Nat) :
    ∀ x ∈ [freshLabel hi, freshLabel (hi + 1)], StateName (fun i => hi ≤ i ∧ i < hi + 2) x := by
  intro x hx
  rcases List.mem_cons.mp hx with rfl | hx
  · exact .fresh (by omega)
  · rw [List.mem_singleton.mp hx]
    exact .fresh (by omega)

/-- A leaf reads its letter, or nothing. Its two states take the next two labels. -/
theorem atom {a : Symbol} (h : IsAtom a lo n) (he : ∀ w, e.Matches (·.1.reads) w ↔ w = a.reads) :
    Fragment e lo n (lo + 2) where
  valid := h.valid
  start := ⟨0, h.start⟩
  le := Nat.le_add_right lo 2
  names x hx := freshNames lo x (h.labels ▸ hx)
  ties_lt t ht := by simp [h.ties] at ht
  accepting w := h.accepting_iff.trans (he w).symm

/-- A repetition of a fragment is a fragment: it reads any number of words of the body.
Its names are those of the body and two fresh ones, so they stay within the range of
labels taken. -/
theorem star (hm : Fragment e lo m hi) (h : IsStar m hi n) :
    Fragment (.star e) lo n (hi + 2) where
  valid := h.valid
  start := ⟨_, h.start⟩
  le := Nat.le_add_right_of_le hm.le
  -- the names of the body come before the two new labels
  names x hx := by
    have hle := hm.le
    rw [h.labels, List.mem_append] at hx
    rcases hx with hx | hx
    · exact (hm.names x hx).mono fun i hi => by omega
    · exact (freshNames hi x hx).mono fun i hi => by omega
  ties_lt t ht := by
    have hlt := hm.ties_lt t (h.ties ▸ ht)
    have hcount := h.stateCount
    omega
  accepting w := by
    rw [h.accepting_iff hm.valid, Expr.matches_star_iff]
    simp only [Repeated, hm.accepting]

/-- Ties of two operands in one fragment are between its states, with new labels or
without. -/
theorem ties_lt_of_merge {extra : List String} (hl : Fragment l lo n mid) (hr : Fragment r mid m hi)
    (h : IsMerge n m extra x) :
    ∀ t ∈ x.ties, t.source < x.stateCount ∧ t.target < x.stateCount := by
  have hcount := h.stateCount
  intro t ht
  rw [h.ties, Array.mem_append] at ht
  rcases ht with ht | ht
  · have hlt := hl.ties_lt t ht
    omega
  · obtain ⟨t', ht', rfl⟩ := Array.mem_map.mp ht
    have hlt := hr.ties_lt t' ht'
    show t'.source + n.stateCount < _ ∧ t'.target + n.stateCount < _
    omega

/-- Labels of two operands in one fragment are names over the numbers of both, apart from
new ones. -/
theorem names_of_merge {extra : List String} (hl : Fragment l lo n mid) (hr : Fragment r mid m hi)
    (h : IsMerge n m extra x) :
    ∀ y ∈ x.labels.toList, StateName (fun i => lo ≤ i ∧ i < hi) y ∨ y ∈ extra := by
  have hle := hl.le
  have hle' := hr.le
  intro y hy
  rw [h.labels, List.mem_append, List.mem_append] at hy
  rcases hy with (hy | hy) | hy
  · exact .inl ((hl.names y hy).mono fun i hi => by omega)
  · exact .inl ((hr.names y hy).mono fun i hi => by omega)
  · exact .inr hy

/-- A concatenation of fragments is a fragment. The labels of its operands came one after
the other, so they are different. -/
theorem concat (hl : Fragment l lo n mid) (hr : Fragment r mid m hi) (h : IsConcat n m x) :
    Fragment (.concat l r) lo x hi where
  valid := h.valid
  start := hl.start.imp fun s hs => h.start.trans hs
  le := Nat.le_trans hl.le hr.le
  names y hy := (hl.names_of_merge hr h.toIsMerge y hy).elim id
    fun hy => absurd hy List.not_mem_nil
  ties_lt := hl.ties_lt_of_merge hr h.toIsMerge
  accepting w := by
    rw [h.accepting_iff hl.valid, Expr.matches_concat_iff]
    simp only [hl.accepting, hr.accepting]

/-- A union of fragments is a fragment. Its two own states take the labels after those of
both operands. -/
theorem union (hl : Fragment l lo n mid) (hr : Fragment r mid m hi) (h : IsUnion n m hi x) :
    Fragment (.union l r) lo x (hi + 2) where
  valid := h.valid
  start := ⟨_, h.start⟩
  le := Nat.le_add_right_of_le (Nat.le_trans hl.le hr.le)
  names y hy := by
    have hle := Nat.le_trans hl.le hr.le
    rcases hl.names_of_merge hr h.toIsMerge y hy with hy | hy
    · exact hy.mono fun i hi => by omega
    · exact (freshNames hi y hy).mono fun i hi => by omega
  ties_lt := hl.ties_lt_of_merge hr h.toIsMerge
  accepting w := by
    rw [h.accepting_iff hl.valid hr.valid, Expr.matches_union_iff, hl.accepting, hr.accepting]

/-- An interleaving of fragments is a fragment. Its labels are names of pairs, over the
numbers of both operands. -/
theorem shuffle {s t : Nat} (hl : Fragment l lo n mid) (hr : Fragment r mid m hi)
    (hs : n.start = some s) (ht : m.start = some t) (h : Nfa.IsProduct n m (s, t) x) :
    Fragment (.shuffle l r) lo x hi where
  valid := h.valid
  start := ⟨0, h.start⟩
  le := Nat.le_trans hl.le hr.le
  names y hy := by
    have hle := hl.le
    have hle' := hr.le
    have horigin : Nfa.HasPair n m (s, t) := ⟨hl.valid.start_lt s hs, hr.valid.start_lt t ht⟩
    rw [h.labels] at hy
    obtain ⟨p, hp, rfl⟩ := List.mem_map.mp hy
    have hpair := Nfa.hasPair_of_mem_reachedPairs hl.valid hr.valid horigin hp
    -- the two members of a pair have names from different ranges
    exact .pair ((hl.names _ (StateTable.nameOf_mem hpair.1)).mono fun i hi => by omega)
      ((hr.names _ (StateTable.nameOf_mem hpair.2)).mono fun i hi => by omega)
  ties_lt := h.ties_lt hl.valid hr.valid ⟨hl.valid.start_lt s hs, hr.valid.start_lt t ht⟩
  accepting w := by
    rw [h.accepting_iff hl.valid hr.valid hs ht, Expr.matches_shuffle_iff]
    simp only [hl.accepting, hr.accepting]

end Fragment

/-- What is made is a fragment: each combinator makes one of fragments. The induction is
on how it was made, and everything known about fragments comes from here. -/
theorem Made.fragment {e : Expr (Letter × Nat)} {lo hi : Nat} {n : Nfa} (h : Made e lo n hi) :
    Fragment e lo n hi := by
  induction h with
  | epsilon h | endMarker h => exact .atom h fun w => by simp [Expr.matches_epsilon_iff,
      Expr.matches_leaf_iff, Symbol.reads, Letter.reads]
  | char h => exact .atom h fun w => Expr.matches_leaf_iff
  | concat _ _ h ihl ihr => exact ihl.concat ihr h
  | union _ _ h ihl ihr => exact ihl.union ihr h
  | shuffle _ _ hs ht h ihl ihr => exact ihl.shuffle ihr hs ht h
  | star _ h ih => exact ih.star h

/-- The recursion makes a fragment of every expression, and never fails. The counter of
the workshop says from which number on its fresh labels are, and that is what keeps the
operands apart. -/
theorem exists_made (e : Expr (Letter × Nat)) (w : Workshop) :
    ∃ n w', (ofExpr e).run w = .ok (n, w') ∧ Made e w.next n w'.next := by
  induction e generalizing w with
  | epsilon =>
    obtain ⟨n, hrun, hn⟩ := run_atom .epsilon w
    exact ⟨n, _, hrun, .epsilon hn⟩
  | leaf a =>
    obtain ⟨c | _, p⟩ := a
    · obtain ⟨n, hrun, hn⟩ := run_atom (.char c) w
      exact ⟨n, _, hrun, .char hn⟩
    · obtain ⟨n, hrun, hn⟩ := run_atom .epsilon w
      exact ⟨n, _, hrun, .endMarker hn⟩
  | concat l r ihl ihr =>
    obtain ⟨n, w₁, hl, hn⟩ := ihl w
    obtain ⟨m, w₂, hr, hm⟩ := ihr w₁
    obtain ⟨s, hs⟩ := hm.fragment.start
    obtain ⟨x, hrun, hx⟩ := run_concat (w := w₂) (hn.fragment.mergeable hm.fragment) hs
    refine ⟨x, w₂, ?_, .concat hn hm hx⟩
    unfold ofExpr
    rw [StateT.run_bind, hl, ok_bind, StateT.run_bind, hr, ok_bind, hrun]
  | union l r ihl ihr =>
    obtain ⟨n, w₁, hl, hn⟩ := ihl w
    obtain ⟨m, w₂, hr, hm⟩ := ihr w₁
    obtain ⟨s, hs⟩ := hn.fragment.start
    obtain ⟨t, ht⟩ := hm.fragment.start
    -- the left operand's labels are still apart from those to come, as the counter only
    -- grows
    have hfree : Free n w₂.next := fun i hi => hn.fragment.free i (Nat.le_trans hm.fragment.le hi)
    obtain ⟨x, hrun, hx⟩ := run_union (w := w₂) (hn.fragment.mergeable hm.fragment) hfree
      hm.fragment.free hs ht
    refine ⟨x, { w₂ with next := w₂.next + 2 }, ?_, .union hn hm hx⟩
    unfold ofExpr
    rw [StateT.run_bind, hl, ok_bind, StateT.run_bind, hr, ok_bind, hrun]
  | shuffle l r ihl ihr =>
    obtain ⟨n, w₁, hl, hn⟩ := ihl w
    obtain ⟨m, w₂, hr, hm⟩ := ihr w₁
    obtain ⟨s, hs⟩ := hn.fragment.start
    obtain ⟨t, ht⟩ := hm.fragment.start
    obtain ⟨x, hinterleave, hproduct⟩ := hn.fragment.exists_interleave hm.fragment hs ht
    refine ⟨x, { w₂ with events := w₂.events ++ [n.interleaveEvent m x] }, ?_,
      .shuffle hn hm hs ht hproduct⟩
    unfold ofExpr
    rw [StateT.run_bind, hl, ok_bind, StateT.run_bind, hr, ok_bind, shuffle, hinterleave]
    rfl
  | star e ih =>
    obtain ⟨n, w₁, hrun, hn⟩ := ih w
    obtain ⟨s, hs⟩ := hn.fragment.start
    obtain ⟨x, hstar, hx⟩ := run_star hn.fragment.valid hn.fragment.free hs
    refine ⟨x, { w₁ with next := w₁.next + 2 }, ?_, .star hn hx⟩
    unfold ofExpr
    rw [StateT.run_bind, hrun, ok_bind, hstar]

end Workshop

-- ---------------------------------------------------------------------------
-- Trees
-- ---------------------------------------------------------------------------

namespace ParseTree

/-- The automaton of a pattern's tree is made along the pattern's expression. The
construction goes through a list of nodes, and the list is that of the expression from the
leaves up. -/
theorem thompson_ofExpr (pattern : String) (d : Dialect) (body : Expr Char) :
    ∃ n hi, (ofExpr pattern d body).thompson = .ok n ∧ Workshop.Made body.marked 0 n hi := by
  obtain ⟨n, w, hrun, hn⟩ := Workshop.exists_made body.marked {}
  refine ⟨n, w.next, ?_, hn⟩
  have hroot : (ofExpr pattern d body).root = body.marked.size - 1 := by
    unfold root
    rw [nodes_ofExpr, Expr.length_nodes]
  -- the list of nodes is that of the expression, with nothing before it and nothing after
  have hnodes : Workshop.nodes #[] 0 (body.marked.nodes 0) = Workshop.ofExpr body.marked >>=
      fun n => pure (#[] ++ Slots.finished (body.marked.size - 1) n) := by
    have hfollows := Workshop.follows_ofExpr body.marked #[] []
    rwa [List.append_nil] at hfollows
  have htake := Slots.take_finished_last #[] (body.marked.size - 1) n
  rw [List.size_toArray, List.length_nil, Nat.zero_add] at htake
  have htree : (Workshop.tree (ofExpr pattern d body)).run {} = .ok (n, { w with
      events := w.events ++ [.thompsonBuilt pattern n.stateCount n.transitions.length] }) := by
    unfold Workshop.tree
    rw [nodes_ofExpr, hnodes, bind_assoc, StateT.run_bind, hrun, ok_bind]
    dsimp only
    rw [pure_bind, hroot, Workshop.takeChild_eq htake]
    rfl
  unfold thompson
  rw [thompsonLogged, htree]
  rfl

end ParseTree

end PatternAutomata
