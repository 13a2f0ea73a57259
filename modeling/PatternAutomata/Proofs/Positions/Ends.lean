import PatternAutomata.ParseTree.Language
import PatternAutomata.Positions
import PatternAutomata.Proofs.Outcome

/-!
# Pattern automata — what the passes find out

A pass from one end goes over the nodes of a tree and finds out about each of
them whether it can stand for the empty word, and which positions can be at that
end. Both are questions about the sequences of positions that the words of the
node pass through, and the answers are right (`EndInfo.Exact`) for every node of
a tree whose children come first, interleavings included.

## Results

* `ofNode_exact`       — what is known about the children makes what is known about a node.
* `exists_pass`        — a pass finds out the right thing about every node.
* `exists_annotations` — and both passes succeed on a tree whose children come first.
-/

namespace PatternAutomata

-- ---------------------------------------------------------------------------
-- Ends of sequences
-- ---------------------------------------------------------------------------

namespace Interleaving

variable {σ : Type} {a : σ} {u v w : List σ}

theorem append : ∀ u v : List σ, Interleaving u v (u ++ v)
  | [], [] => .nil
  | [], _ :: v => .right (append [] v)
  | _ :: u, v => .left (append u v)

/-- Nothing is interleaved from nothing alone. -/
theorem nil_iff : Interleaving u v [] ↔ u = [] ∧ v = [] := by
  constructor
  · intro h
    cases h
    exact ⟨rfl, rfl⟩
  · rintro ⟨rfl, rfl⟩
    exact .nil

/-- A last letter of the left word can be last in the interleaving. -/
theorem concat_left (h : Interleaving u v w) (a : σ) : Interleaving (u ++ [a]) v (w ++ [a]) := by
  induction h with
  | nil => exact .left .nil
  | left _ ih => exact .left ih
  | right _ ih => exact .right ih

theorem symm (h : Interleaving u v w) : Interleaving v u w := by
  induction h with
  | nil => exact .nil
  | left _ ih => exact .right ih
  | right _ ih => exact .left ih

/-- The last element is the last one of an operand. The induction is on the interleaving's
word, since an interleaving is built from its beginning. -/
theorem exists_concat (h : Interleaving u v (w ++ [a])) :
    (∃ u', u = u' ++ [a]) ∨ ∃ v', v = v' ++ [a] := by
  induction w generalizing u v with
  | nil =>
    cases h with
    | left h => exact .inl ⟨[], by rw [(nil_iff.mp h).1]; rfl⟩
    | right h => exact .inr ⟨[], by rw [(nil_iff.mp h).2]; rfl⟩
  -- the first letter is taken from one of the two, and the last is in what is left
  | cons b w ih =>
    cases h with
    | left h =>
      refine (ih h).imp_left ?_
      rintro ⟨u', rfl⟩
      exact ⟨b :: u', rfl⟩
    | right h =>
      refine (ih h).imp_right ?_
      rintro ⟨v', rfl⟩
      exact ⟨b :: v', rfl⟩

end Interleaving

namespace End

variable {side : End} {p : Nat} {u v w : List Nat}

/-- The sequence `w` with `p` put to its end. -/
def attach (side : End) (p : Nat) (w : List Nat) : List Nat :=
  match side with
  | front => p :: w
  | back => w ++ [p]

/-- The sequence with `near` at the end and `far` away from it. -/
def join (side : End) (near far : List Nat) : List Nat :=
  match side with
  | front => near ++ far
  | back => far ++ near

theorem attach_ne_nil : side.attach p w ≠ [] := by
  cases side <;> simp [attach]

theorem join_nil : side.join [] v = v := by
  cases side <;> simp [join]

theorem join_attach : side.join (side.attach p u) v = side.attach p (side.join u v) := by
  cases side <;> simp [join, attach]

/-- What is at the end is at the end of the near part, unless there is no near part. This
is the one fact about words that both passes rest on; they differ in what is near. -/
theorem join_eq_attach (h : side.join u v = side.attach p w) :
    u = [] ∧ v = side.attach p w ∨ ∃ u', u = side.attach p u' := by
  cases side with
  | front =>
    cases u with
    | nil => exact .inl ⟨rfl, h⟩
    | cons a u => exact .inr ⟨u, congrArg (· :: u) (List.cons.inj h).1⟩
  | back =>
    rcases List.eq_nil_or_concat u with rfl | ⟨u', a, rfl⟩
    · exact .inl ⟨rfl, by rw [← h]; exact (List.append_nil v).symm⟩
    · rw [List.concat_eq_append] at h ⊢
      have hlast : (v ++ u') ++ [a] = w ++ [p] := (List.append_assoc v u' [a]).trans h
      exact .inr ⟨u', congrArg (u' ++ ·) (List.append_inj' hlast rfl).2⟩

/-- What is at the end of two sequences in turn is at that end of one of them, whichever
end it is. -/
theorem append_eq_attach (h : u ++ v = side.attach p w) :
    (∃ u', u = side.attach p u') ∨ ∃ v', v = side.attach p v' := by
  cases side with
  | front =>
    have hjoin : front.join u v = front.attach p w := h
    rcases join_eq_attach hjoin with ⟨-, hv⟩ | hu
    · exact .inr ⟨w, hv⟩
    · exact .inl hu
  | back =>
    have hjoin : back.join v u = back.attach p w := h
    rcases join_eq_attach hjoin with ⟨-, hu⟩ | hv
    · exact .inl ⟨w, hu⟩
    · exact .inr hv

/-- And so it is of many sequences in turn, some of which may be empty: the end is that of
the first, or last, one that is not. -/
theorem flatten_eq_attach {ws : List (List Nat)} (h : ws.flatten = side.attach p w) :
    ∃ u ∈ ws, ∃ u', u = side.attach p u' := by
  induction ws generalizing w with
  | nil => exact absurd h.symm attach_ne_nil
  | cons u ws ih =>
    rcases append_eq_attach h with hu | ⟨w', hws⟩
    · exact ⟨u, List.mem_cons_self, hu⟩
    · obtain ⟨v, hv, hend⟩ := ih hws
      exact ⟨v, List.mem_cons_of_mem _ hv, hend⟩

/-- What is put to the end of an operand can be put to that end of the interleaving. -/
theorem interleaving_attach (h : Interleaving u v w) (p : Nat) :
    Interleaving (side.attach p u) v (side.attach p w) := by
  cases side with
  | front => exact .left h
  | back => exact h.concat_left p

/-- What is at the end of an interleaving is at that end of an operand, since every step
of an interleaving takes from one of the two. -/
theorem exists_attach_of_interleaving (h : Interleaving u v (side.attach p w)) :
    (∃ u', u = side.attach p u') ∨ ∃ v', v = side.attach p v' := by
  cases side with
  | front =>
    cases h with
    | left h => exact .inl ⟨_, rfl⟩
    | right h => exact .inr ⟨_, rfl⟩
  | back => exact h.exists_concat

end End

-- ---------------------------------------------------------------------------
-- Nodes
-- ---------------------------------------------------------------------------

/-- Children come before their parents. -/
def ParseTree.ChildrenFirst (t : ParseTree) : Prop :=
  ∀ (id : Nat) (node : Node), t.nodes[id]? = some node → ∀ child ∈ node.children, child < id

section Nodes

variable {t : ParseTree} {side : End} {id : Nat} {i j : EndInfo}

/-- Position `p` can be at an end of the words of the node. -/
def ParseTree.HasEnd (t : ParseTree) (side : End) (id p : Nat) : Prop :=
  ∃ w, t.Passes id (side.attach p w)

namespace EndInfo

/-- What was found out about a node is right, and there is something to find out. That the
node stands for some sequence at all is needed of operands: the ends of one come to be
seen only together with a sequence of the other. -/
structure Exact (t : ParseTree) (side : End) (id : Nat) (i : EndInfo) : Prop where
  inhabited : ∃ w, t.Passes id w
  nullable_iff : i.nullable = true ↔ t.Passes id []
  mem_iff : ∀ p, p ∈ i.positions ↔ t.HasEnd side id p

/-- Both passes ask whether the empty sequence is among those of the node, so they give the same
answer, though each of them works it out from its own end. -/
theorem Exact.nullable_eq {side' : End} (hi : Exact t side id i) (hj : Exact t side' id j) :
    i.nullable = j.nullable :=
  Bool.eq_iff_iff.mpr (hi.nullable_iff.trans hj.nullable_iff.symm)

theorem Exact.epsilon (h : ∀ w, t.Passes id w ↔ w = []) :
    Exact t side id { nullable := true, positions := ∅ } where
  inhabited := ⟨[], (h []).mpr rfl⟩
  nullable_iff := by simp [h]
  mem_iff p := by simp [ParseTree.HasEnd, h, End.attach_ne_nil]

/-- A leaf passes through its own position, which is at both ends of the only sequence
there is. -/
theorem Exact.position {q : Nat} (h : ∀ w, t.Passes id w ↔ w = [q]) :
    Exact t side id (position q) where
  inhabited := ⟨[q], (h [q]).mpr rfl⟩
  nullable_iff := by simp [h, EndInfo.position]
  mem_iff p := by
    have hattach : ∀ w, side.attach p w = [q] ↔ p = q ∧ w = [] := by
      intro w
      cases side <;> cases w <;> simp [End.attach]
    simp [ParseTree.HasEnd, h, EndInfo.position, hattach]

/-- A union has the ends of both operands, and can be empty if one of them can. -/
theorem Exact.union {l r : Nat} (h : ∀ w, t.Passes id w ↔ t.Passes l w ∨ t.Passes r w)
    (hi : i.Exact t side l) (hj : j.Exact t side r) : (union i j).Exact t side id where
  inhabited := hi.inhabited.imp fun w hw => (h w).mpr (.inl hw)
  nullable_iff := by simp [EndInfo.union, h, hi.nullable_iff, hj.nullable_iff]
  mem_iff p := by
    unfold EndInfo.union
    rw [SortedSet.mem_union, hi.mem_iff, hj.mem_iff]
    simp only [ParseTree.HasEnd, h, exists_or]

/-- So has an interleaving. An end of one operand is an end of the whole if the other
operand is read at the other side, and for this it has to have some word. -/
theorem Exact.shuffle {l r : Nat}
    (h : ∀ w, t.Passes id w ↔ ∃ u v, t.Passes l u ∧ t.Passes r v ∧ Interleaving u v w)
    (hi : i.Exact t side l) (hj : j.Exact t side r) : (shuffle i j).Exact t side id where
  inhabited := by
    obtain ⟨u, hu⟩ := hi.inhabited
    obtain ⟨v, hv⟩ := hj.inhabited
    exact ⟨u ++ v, (h _).mpr ⟨u, v, hu, hv, .append u v⟩⟩
  nullable_iff := by
    unfold EndInfo.shuffle
    rw [Bool.and_eq_true, hi.nullable_iff, hj.nullable_iff, h]
    simp only [Interleaving.nil_iff]
    constructor
    · rintro ⟨hl, hr⟩
      exact ⟨[], [], hl, hr, rfl, rfl⟩
    · rintro ⟨_, _, hl, hr, rfl, rfl⟩
      exact ⟨hl, hr⟩
  mem_iff p := by
    unfold EndInfo.shuffle
    rw [SortedSet.mem_union, hi.mem_iff, hj.mem_iff]
    constructor
    · rintro (⟨u, hu⟩ | ⟨v, hv⟩)
      · -- the other operand is read away from the end
        obtain ⟨v, hv⟩ := hj.inhabited
        exact ⟨u ++ v, (h _).mpr ⟨_, v, hu, hv, End.interleaving_attach (.append u v) p⟩⟩
      · obtain ⟨u, hu⟩ := hi.inhabited
        exact ⟨v ++ u, (h _).mpr ⟨u, _, hu, hv, (End.interleaving_attach (.append v u) p).symm⟩⟩
    · rintro ⟨w, hw⟩
      obtain ⟨u, v, hu, hv, huv⟩ := (h _).mp hw
      rcases End.exists_attach_of_interleaving huv with ⟨u', rfl⟩ | ⟨v', rfl⟩
      · exact .inl ⟨u', hu⟩
      · exact .inr ⟨v', hv⟩

/-- Of two parts in turn, the far one is at the end if there is no near one. Which of the
operands is the near part depends on the end, and nothing else does. -/
theorem Exact.concat {near far : Nat}
    (h : ∀ w, t.Passes id w ↔ ∃ u v, t.Passes near u ∧ t.Passes far v ∧ side.join u v = w)
    (hi : i.Exact t side near) (hj : j.Exact t side far) : (concat i j).Exact t side id where
  inhabited := by
    obtain ⟨u, hu⟩ := hi.inhabited
    obtain ⟨v, hv⟩ := hj.inhabited
    exact ⟨_, (h _).mpr ⟨u, v, hu, hv, rfl⟩⟩
  nullable_iff := by
    have hempty : t.Passes id [] ↔ t.Passes near [] ∧ t.Passes far [] := by
      rw [h]
      constructor
      · rintro ⟨u, v, hu, hv, huv⟩
        obtain ⟨rfl, rfl⟩ : u = [] ∧ v = [] := by
          cases side <;> simp_all [End.join]
        exact ⟨hu, hv⟩
      · rintro ⟨hu, hv⟩
        exact ⟨[], [], hu, hv, End.join_nil⟩
    rw [hempty, ← hi.nullable_iff, ← hj.nullable_iff, EndInfo.concat]
    split <;> simp_all
  mem_iff p := by
    have hnear : t.HasEnd side near p → t.HasEnd side id p := by
      rintro ⟨u, hu⟩
      obtain ⟨v, hv⟩ := hj.inhabited
      exact ⟨_, (h _).mpr ⟨_, v, hu, hv, End.join_attach⟩⟩
    -- an end of the whole: the near part's, or the far part's behind an empty near part
    have hend : t.HasEnd side id p ↔
        t.HasEnd side near p ∨ t.Passes near [] ∧ t.HasEnd side far p := by
      constructor
      · rintro ⟨w, hw⟩
        obtain ⟨u, v, hu, hv, huv⟩ := (h _).mp hw
        rcases End.join_eq_attach huv with ⟨rfl, rfl⟩ | ⟨u', rfl⟩
        · exact .inr ⟨hu, w, hv⟩
        · exact .inl ⟨u', hu⟩
      · rintro (hu | ⟨hu, v, hv⟩)
        · exact hnear hu
        · exact ⟨v, (h _).mpr ⟨[], _, hu, hv, End.join_nil⟩⟩
    rw [hend, ← hi.nullable_iff, ← hi.mem_iff, ← hj.mem_iff, EndInfo.concat]
    split <;> simp_all

/-- A repetition has the ends of its body, as one round is a word of it, and no word of it
can begin or end in another way. It may be empty whatever the body is. -/
theorem Exact.star {e : Nat} (h : ∀ w, t.Passes id w ↔ Repeated (t.Passes e) w)
    (hi : i.Exact t side e) : (star i).Exact t side id where
  inhabited := ⟨[], (h []).mpr repeated_nil⟩
  nullable_iff := by simp [EndInfo.star, h, repeated_nil]
  mem_iff p := by
    unfold EndInfo.star
    rw [hi.mem_iff]
    constructor
    · rintro ⟨w, hw⟩
      refine ⟨w, (h _).mpr ?_⟩
      rw [← List.append_nil (side.attach p w)]
      exact Repeated.cons hw repeated_nil
    · rintro ⟨w, hw⟩
      obtain ⟨ws, hws, hflat⟩ := (h _).mp hw
      -- the rounds in turn end as the last round that is not empty does
      obtain ⟨u, hu, u', rfl⟩ := End.flatten_eq_attach hflat
      exact ⟨u', hws _ hu⟩

-- ---------------------------------------------------------------------------
-- The passes
-- ---------------------------------------------------------------------------

/-- Something right is known about the node. -/
def Known (t : ParseTree) (side : End) (table : Array EndInfo) (id : Nat) : Prop :=
  ∃ i, lookup table id = .ok i ∧ i.Exact t side id

/-- What is known about the children makes what is known about a node. The rules of the
passes are those of the operators, with no premise on the tree. -/
theorem ofNode_exact {node : Node} {table : Array EndInfo} (hnode : t.nodes[id]? = some node)
    (hknown : ∀ child ∈ node.children, Known t side table child) :
    ∃ i, ofNode side table node = .ok i ∧ i.Exact t side id := by
  cases node with
  | epsilon => exact ⟨_, rfl, .epsilon fun w => nodeMatches_epsilon_iff hnode⟩
  | char c q => exact ⟨_, rfl, .position fun w => nodeMatches_char_iff hnode⟩
  | endMarker q => exact ⟨_, rfl, .position fun w => nodeMatches_endMarker_iff hnode⟩
  | star e =>
    obtain ⟨i, hi, he⟩ := hknown e (by simp [Node.children])
    exact ⟨_, by rw [ofNode, hi]; rfl, .star (fun w => nodeMatches_star_iff hnode) he⟩
  | union l r =>
    obtain ⟨i, hi, hl⟩ := hknown l (by simp [Node.children])
    obtain ⟨j, hj, hr⟩ := hknown r (by simp [Node.children])
    exact ⟨_, by rw [ofNode, hi, hj]; rfl, .union (fun w => nodeMatches_union_iff hnode) hl hr⟩
  | shuffle l r =>
    obtain ⟨i, hi, hl⟩ := hknown l (by simp [Node.children])
    obtain ⟨j, hj, hr⟩ := hknown r (by simp [Node.children])
    exact ⟨_, by rw [ofNode, hi, hj]; rfl,
      .shuffle (fun w => nodeMatches_shuffle_iff hnode) hl hr⟩
  | concat l r =>
    obtain ⟨i, hi, hl⟩ := hknown l (by simp [Node.children])
    obtain ⟨j, hj, hr⟩ := hknown r (by simp [Node.children])
    cases side with
    | front =>
      exact ⟨_, by rw [ofNode, hi, hj]; rfl,
        .concat (fun w => nodeMatches_concat_iff hnode) hl hr⟩
    | back =>
      -- seen from the back the right part is the near one
      refine ⟨_, by rw [ofNode, hi, hj]; rfl, .concat (fun w => ?_) hr hl⟩
      refine (nodeMatches_concat_iff hnode).trans ⟨?_, ?_⟩
      · rintro ⟨u, v, hu, hv, huv⟩
        exact ⟨v, u, hv, hu, huv⟩
      · rintro ⟨v, u, hv, hu, huv⟩
        exact ⟨u, v, hu, hv, huv⟩

theorem lookup_push_size {table : Array EndInfo} : lookup (table.push i) table.size = .ok i := by
  unfold lookup
  rw [Array.getElem?_push_size]
  rfl

theorem lookup_push_lt {table : Array EndInfo} (h : id < table.size) :
    lookup (table.push i) id = lookup table id := by
  rw [lookup, Array.getElem?_push_lt h, lookup, Array.getElem?_eq_getElem h]

theorem getElem_of_lookup {table : Array EndInfo} {hid : id < table.size}
    (h : lookup table id = .ok i) : table[id] = i := by
  rw [lookup, Array.getElem?_eq_getElem hid] at h
  exact Except.ok.inj h

/-- A pass has an entry for every node, and it says the right thing. The loop goes over
the nodes in order, so when it comes to one, its children are known. -/
theorem exists_pass (h : t.ChildrenFirst) (side : End) :
    ∃ table, pass side t.nodes = .ok table ∧ table.size = t.nodes.length ∧
      ∀ id < t.nodes.length, Known t side table id := by
  -- one more node: the entries before it stay as they are
  have hstep : ∀ done node rest table, t.nodes = done ++ node :: rest →
      (table.size = done.length ∧ ∀ id < done.length, Known t side table id) →
      ∃ more, (do return table.push (← ofNode side table node) : Except Fault _) = .ok more ∧
        more.size = (done ++ [node]).length ∧
        ∀ id < (done ++ [node]).length, Known t side more id := by
    rintro done node rest table hnodes ⟨hsize, hknown⟩
    have hnode : t.nodes[done.length]? = some node := by simp [hnodes]
    obtain ⟨i, hi, hexact⟩ := ofNode_exact hnode fun child hchild =>
      hknown child (h _ node hnode child hchild)
    refine ⟨table.push i, by rw [hi]; rfl, by simp [hsize], fun id hid => ?_⟩
    rw [List.length_append, List.length_singleton] at hid
    rcases Nat.lt_succ_iff_lt_or_eq.mp hid with hid | rfl
    · obtain ⟨j, hj, hexact'⟩ := hknown id hid
      exact ⟨j, by rw [lookup_push_lt (hsize ▸ hid), hj], hexact'⟩
    · exact ⟨i, hsize ▸ lookup_push_size, hexact⟩
  obtain ⟨table, hpass, hsize, hknown⟩ := exists_foldlM_eq_ok hstep (b := #[]) ⟨rfl, nofun⟩
  exact ⟨table, hpass, hsize, hknown⟩

end EndInfo

namespace Annotations

variable {a : Annotations}

/-- What both passes found out is right, about every node of the tree. -/
structure Exact (t : ParseTree) (a : Annotations) : Prop where
  front : ∀ id < t.nodes.length, EndInfo.Known t .front a.front id
  back : ∀ id < t.nodes.length, EndInfo.Known t .back a.back id

/-- The passes agree about every node. The two tables are compared as wholes, so their lengths
matter too. -/
theorem Exact.nullables_eq (h : Exact t a) (hfront : a.front.size = t.nodes.length)
    (hback : a.back.size = t.nodes.length) : nullables a.front = nullables a.back := by
  refine List.ext_getElem (by simp [nullables, hfront, hback]) fun id hid _ => ?_
  have hlt : id < t.nodes.length := by simpa [nullables, hfront] using hid
  obtain ⟨i, hi, hexact⟩ := h.front id hlt
  obtain ⟨j, hj, hexact'⟩ := h.back id hlt
  have hi' : a.front[id] = i := EndInfo.getElem_of_lookup hi
  have hj' : a.back[id] = j := EndInfo.getElem_of_lookup hj
  simpa [nullables, hi', hj'] using hexact.nullable_eq hexact'

/-- The passes are made and right. That they differ is looked for, and does not happen. -/
theorem exists_annotations (h : t.ChildrenFirst) : ∃ a, ofTree t = .ok a ∧ Exact t a := by
  obtain ⟨front, hfront, hsize, hknown⟩ := EndInfo.exists_pass h .front
  obtain ⟨back, hback, hsize', hknown'⟩ := EndInfo.exists_pass h .back
  have hexact : Exact t ⟨front, back⟩ := ⟨hknown, hknown'⟩
  refine ⟨⟨front, back⟩, ?_, hexact⟩
  rw [ofTree, hfront, ok_bind, hback, ok_bind, if_pos (hexact.nullables_eq hsize hsize')]
  rfl

theorem Exact.first_eq (h : Exact t a) (hid : id < t.nodes.length) :
    ∃ set, a.first id = .ok set ∧ ∀ p, p ∈ set ↔ t.HasEnd .front id p := by
  obtain ⟨i, hi, hexact⟩ := h.front id hid
  exact ⟨i.positions, by rw [first, hi]; rfl, hexact.mem_iff⟩

theorem Exact.last_eq (h : Exact t a) (hid : id < t.nodes.length) :
    ∃ set, a.last id = .ok set ∧ ∀ p, p ∈ set ↔ t.HasEnd .back id p := by
  obtain ⟨i, hi, hexact⟩ := h.back id hid
  exact ⟨i.positions, by rw [last, hi]; rfl, hexact.mem_iff⟩

end Annotations

end Nodes

end PatternAutomata
