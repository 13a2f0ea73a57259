import Mathlib.Data.List.Induction
import PatternAutomata.ParseTree.Expression
import PatternAutomata.ParseTree.Printer
import PatternAutomata.Proofs.Labels
import PatternAutomata.Proofs.Parser.Consumed

/-!
# Pattern automata — printed trees can be read back

A tree is printed along its list of nodes: the text of a node is put together from
those of its children, which it takes out of a table. Every place before the root
is a child once, so a text is there until its parent takes it, and when the root is
printed no other text is left (`Table`). What comes out is the text of the tree's
expression, written from the root down.

That text tells the tree. An operator is told from a literal with the same sign by
the bracket behind it, where a literal has a colon; a position ends where no digit
follows; and the texts of operands end by themselves, so that a comma or a bracket
behind them is never taken for a part of them (`Separate`). `ε` and the end marker
have signs that are no literals.

## Results

* `Node.text_eq`          — a node whose children's texts are there is printed as its expression.
* `Table.visit`           — one node more, and the table is still right.
* `Expr.separate`         — no text of an expression goes on as that of another one.
* `compile_printedFaithfully` — the printed tree is that of the expression, and tells the nodes.
-/

namespace PatternAutomata

-- ---------------------------------------------------------------------------
-- Nodes
-- ---------------------------------------------------------------------------

namespace Slots

variable {β : Type} {slots : Slots β} {i : Nat}

/-- The slots without the results at these places. -/
def without (slots : Slots β) (places : List Nat) : Slots β :=
  places.foldl (fun slots i => slots.setIfInBounds i none) slots

theorem size_without (slots : Slots β) (places : List Nat) :
    (slots.without places).size = slots.size := by
  induction places generalizing slots with
  | nil => rfl
  | cons i places ih => exact (ih _).trans Array.size_setIfInBounds

/-- Nothing but these places is emptied. The induction is on the places, which may be
any. -/
theorem getElem?_without (places : List Nat) (hi : i < slots.size) :
    (slots.without places)[i]? = if i ∈ places then some none else slots[i]? := by
  induction places generalizing slots with
  | nil => rfl
  | cons j places ih =>
    have hsize : i < (slots.setIfInBounds j none).size := by
      rw [Array.size_setIfInBounds]
      exact hi
    have hrest : (slots.without (j :: places))[i]? =
        if i ∈ places then some none else (slots.setIfInBounds j none)[i]? := ih hsize
    rw [hrest, Array.getElem?_setIfInBounds]
    -- emptied here, or later, or not at all
    by_cases hj : j = i
    · subst hj
      simp [hi]
    · have hne : i ≠ j := fun h => hj h.symm
      simp [hj, hne]

theorem getElem?_push {b : β} :
    (slots.push b)[i]? = if i = slots.size then some (some b) else slots[i]? :=
  Array.getElem?_push

theorem take_eq {b : β} (h : slots[i]? = some (some b)) :
    slots.take i = (some b, slots.without [i]) :=
  Prod.ext (congrArg Option.join h) rfl

end Slots

namespace Node

variable {nodes : List Node} {slots : Slots String} {id l r : Nat} {node : Node}

/-- Two operands are printed one after the other. They must be in different slots: the
second one is looked for when the first is gone. -/
theorem binaryText_eq {a b : String} (sign : String) (hne : l ≠ r)
    (hl : slots[l]? = some (some a)) (hr : slots[r]? = some (some b)) :
    binaryText sign l r slots = (Expr.operatorText sign a b, slots.without [l, r]) := by
  have hlt : r < slots.size := (Array.getElem?_eq_some_iff.mp hr).1
  have hright : (slots.without [l])[r]? = some (some b) := by
    rw [Slots.getElem?_without [l] hlt, if_neg (by simpa using hne.symm), hr]
  unfold binaryText
  rw [Slots.take_eq hl]
  dsimp only
  rw [Slots.take_eq hright]
  rfl

/-- The text of the expression at place `id` is in its slot. -/
def TextThere (nodes : List Node) (slots : Slots String) (id : Nat) : Prop :=
  ∃ e, exprAt? nodes id = some e ∧ slots[id]? = some (some e.text)

/-- What a node makes of two operands whose texts are there. The three operators differ in
their sign and in how they join the operands, so both are left open. -/
theorem exists_operands (hlt : ∀ child ∈ [l, r], child < id) (hnodup : [l, r].Nodup)
    (hthere : ∀ child ∈ [l, r], TextThere nodes slots child) :
    ∃ a b, (∀ join : Expr (Letter × Nat) → Expr (Letter × Nat) → Expr (Letter × Nat),
        (if l < id ∧ r < id then do return join (← exprAt? nodes l) (← exprAt? nodes r)
          else none) = some (join a b)) ∧
      ∀ sign, binaryText sign l r slots =
        (Expr.operatorText sign a.text b.text, slots.without [l, r]) := by
  have hl : l < id := hlt l List.mem_cons_self
  have hr : r < id := hlt r (List.mem_cons_of_mem l List.mem_cons_self)
  have hne : l ≠ r := fun h => (List.nodup_cons.mp hnodup).1 (h ▸ List.mem_cons_self)
  obtain ⟨a, ha, htexta⟩ := hthere l List.mem_cons_self
  obtain ⟨b, hb, htextb⟩ := hthere r (List.mem_cons_of_mem l List.mem_cons_self)
  refine ⟨a, b, fun join => ?_, fun sign => binaryText_eq sign hne htexta htextb⟩
  rw [if_pos ⟨hl, hr⟩, ha, hb]
  rfl

/-- A node whose children's texts are there, each in a slot of its own, is printed as its
expression, and takes them. -/
theorem text_eq (hnode : nodes[id]? = some node) (hlt : ∀ child ∈ node.children, child < id)
    (hnodup : node.children.Nodup) (hthere : ∀ child ∈ node.children, TextThere nodes slots child) :
    ∃ e, exprAt? nodes id = some e ∧ node.text slots = (e.text, slots.without node.children) := by
  cases node with
  | epsilon => exact ⟨.epsilon, by rw [exprAt?, hnode], rfl⟩
  | char c p => exact ⟨.leaf (.char c, p), by rw [exprAt?, hnode], rfl⟩
  | endMarker p => exact ⟨.leaf (.endMarker, p), by rw [exprAt?, hnode], rfl⟩
  | concat l r =>
    obtain ⟨a, b, hread, hprinted⟩ := exists_operands hlt hnodup hthere
    exact ⟨.concat a b, by rw [exprAt?, hnode]; exact hread .concat, hprinted "."⟩
  | union l r =>
    obtain ⟨a, b, hread, hprinted⟩ := exists_operands hlt hnodup hthere
    exact ⟨.union a b, by rw [exprAt?, hnode]; exact hread .union, hprinted "|"⟩
  | shuffle l r =>
    obtain ⟨a, b, hread, hprinted⟩ := exists_operands hlt hnodup hthere
    exact ⟨.shuffle a b, by rw [exprAt?, hnode]; exact hread .shuffle, hprinted "&"⟩
  -- the only node with one child
  | star e =>
    have he : e < id := hlt e List.mem_cons_self
    obtain ⟨a, ha, htext⟩ := hthere e List.mem_cons_self
    refine ⟨.star a, ?_, ?_⟩
    · rw [exprAt?, hnode]
      dsimp only
      rw [if_pos he, ha]
      rfl
    · rw [Node.text, Slots.take_eq htext]
      rfl

end Node

-- ---------------------------------------------------------------------------
-- The table
-- ---------------------------------------------------------------------------

/-- The table after the nodes `before`: a text that was referred to was taken, and the
text of any other node is in its slot. This is the invariant of printing. -/
structure Table (nodes before : List Node) (slots : Slots String) : Prop where
  size_eq : slots.size = before.length
  taken : ∀ i ∈ before.flatMap Node.children, slots[i]? = some none
  there : ∀ i < before.length, i ∉ before.flatMap Node.children → Node.TextThere nodes slots i

namespace Table

variable {nodes before after : List Node} {slots : Slots String} {node : Node}

theorem start : Table nodes [] #[] where
  size_eq := rfl
  taken _ hi := absurd hi List.not_mem_nil
  there _ hi := absurd hi (Nat.not_lt_zero _)

/-- One node more, if its children come before it and are nobody else's. Their texts are
there then, so the node is printed as its expression. -/
theorem visit (h : Table nodes before slots) (hnodes : nodes = before ++ node :: after)
    (hlt : ∀ child ∈ node.children, child < before.length)
    (hnodup : (before.flatMap Node.children ++ node.children).Nodup) :
    Table nodes (before ++ [node]) ((node.text slots).2.push (node.text slots).1) ∧
      ∀ child ∈ node.children, Node.TextThere nodes slots child := by
  obtain ⟨-, hown, hnew⟩ := List.nodup_append.mp hnodup
  have hthere : ∀ child ∈ node.children, Node.TextThere nodes slots child :=
    fun child hchild =>
      h.there child (hlt child hchild) fun hmem => hnew child hmem child hchild rfl
  have hnode : nodes[before.length]? = some node := by simp [hnodes]
  obtain ⟨e, he, htext⟩ := Node.text_eq hnode hlt hown hthere
  have hsize : (slots.without node.children).size = before.length :=
    (Slots.size_without slots node.children).trans h.size_eq
  -- the slots of the nodes before: only those of the children have changed
  have hold : ∀ i < before.length, ((slots.without node.children).push e.text)[i]? =
      if i ∈ node.children then some none else slots[i]? := by
    intro i hi
    rw [Slots.getElem?_push, if_neg (by omega), Slots.getElem?_without _ (h.size_eq ▸ hi)]
  have hreferred : ∀ i, i ∈ (before ++ [node]).flatMap Node.children ↔
      i ∈ before.flatMap Node.children ∨ i ∈ node.children := by simp
  refine ⟨?_, hthere⟩
  rw [htext]
  refine ⟨?_, fun i hi => ?_, fun i hi hfree => ?_⟩
  · simp [Slots.push, hsize]
  · show ((slots.without node.children).push e.text)[i]? = some none
    rcases (hreferred i).mp hi with hbefore | hchild
    · have htaken := h.taken i hbefore
      have hi : i < slots.size := (Array.getElem?_eq_some_iff.mp htaken).1
      rw [hold i (h.size_eq ▸ hi), htaken, ite_self]
    · rw [hold i (hlt i hchild), if_pos hchild]
  · rw [hreferred, not_or] at hfree
    rw [List.length_append, List.length_singleton] at hi
    rcases Nat.lt_succ_iff_lt_or_eq.mp hi with hi | rfl
    · obtain ⟨e', he', htext'⟩ := h.there i hi hfree.1
      exact ⟨e', he', (hold i hi).trans ((if_neg hfree.2).trans htext')⟩
    · exact ⟨e, he, by rw [Slots.getElem?_push, if_pos hsize.symm]⟩

end Table

namespace ParseTree

/-- The last node is printed out of what the nodes before it have left. -/
theorem texts_concat (before : List Node) (node : Node) : texts (before ++ [node]) =
    (node.text (texts before)).2.push (node.text (texts before)).1 := by
  unfold texts
  rw [List.foldl_append]
  rfl

/-- Children come before their parents, and no place is a child twice. This is all that
printing needs of a list of nodes; that the list is a whole tree is not asked for. -/
structure Ordered (t : ParseTree) : Prop where
  child_lt : ∀ (i : Nat) (node : Node), t.nodes[i]? = some node → ∀ child ∈ node.children, child < i
  nodup : t.references.Nodup

variable {t : ParseTree} {before after : List Node} {node : Node}

/-- So a node's children are not those of a node before it. -/
theorem Ordered.nodup_children (h : t.Ordered) (hnodes : t.nodes = before ++ node :: after) :
    (before.flatMap Node.children ++ node.children).Nodup := by
  have hall : t.references =
      (before.flatMap Node.children ++ node.children) ++ after.flatMap Node.children := by
    rw [references, hnodes]
    simp
  exact (List.nodup_append.mp (hall ▸ h.nodup)).1

theorem Ordered.lt_of_mem_children (h : t.Ordered) (hnodes : t.nodes = before ++ node :: after) :
    ∀ child ∈ node.children, child < before.length :=
  h.child_lt before.length node (by simp [hnodes])

/-- Along the nodes of such a tree the table is always right. The induction is on the
nodes that were printed, taken from the end. -/
theorem Ordered.table (h : t.Ordered) (hnodes : t.nodes = before ++ after) :
    Table t.nodes before (texts before) := by
  induction before using List.reverseRecOn generalizing after with
  | nil => exact Table.start
  | append_singleton before node ih =>
    rw [List.append_assoc] at hnodes
    rw [texts_concat]
    exact ((ih hnodes).visit hnodes (h.lt_of_mem_children hnodes) (h.nodup_children hnodes)).1

/-- No child's text is missing when its parent is printed, and each is taken once. Before
the root all slots are empty in the end. -/
structure TextsTakenOnce (t : ParseTree) : Prop where
  there : ∀ before node after, t.nodes = before ++ node :: after →
    ∀ child ∈ node.children, Node.TextThere t.nodes (texts before) child
  apart : ∀ node ∈ t.nodes, node.children.Nodup
  none_left : ∀ i < t.root, (texts t.nodes)[i]? = some none

/-- If each place before the root is a child, all texts are taken: each by its parent, at
the parent's turn, and none is left over in the end. -/
theorem Ordered.textsTakenOnce (h : t.Ordered) (hroot : ∀ i < t.root, i ∈ t.references) :
    t.TextsTakenOnce where
  there before node after hnodes := by
    have htable := h.table hnodes
    exact (htable.visit hnodes (h.lt_of_mem_children hnodes) (h.nodup_children hnodes)).2
  apart node hnode := by
    obtain ⟨before, after, hnodes⟩ := List.append_of_mem hnode
    exact (List.nodup_append.mp (h.nodup_children hnodes)).2.1
  none_left i hi := by
    have htable : Table t.nodes t.nodes (texts t.nodes) := h.table (List.append_nil _).symm
    exact htable.taken i (hroot i hi)

/-- What is left in the end is the text of the root, which is nobody's child. So the nodes
are printed as the expression that they are read back to. -/
theorem Ordered.text_eq (h : t.Ordered) (hne : t.nodes ≠ []) (hroot : t.root ∉ t.references) :
    ∃ e, t.expr? = some e ∧ t.text = e.text := by
  have htable : Table t.nodes t.nodes (texts t.nodes) := h.table (List.append_nil _).symm
  have hpos := List.length_pos_iff.mpr hne
  have hlast : t.root < t.nodes.length := by
    unfold root
    omega
  obtain ⟨e, he, htext⟩ := htable.there t.root hlast hroot
  refine ⟨e, he, ?_⟩
  unfold text
  rw [Array.back?_eq_getElem?, htable.size_eq]
  show ((texts t.nodes)[t.root]?).join.getD "" = e.text
  rw [htext]
  rfl

/-- The trees of patterns are ordered, as their check has found: it looks at the children
of every node, and sorts the references. -/
theorem ordered_ofExpr {pattern : String} {d : Dialect} {body : Expr Char} :
    (ofExpr pattern d body).Ordered where
  child_lt i node hnode child hchild := by
    have hlt := lt_of_checkNodes checkNodes_ofExpr hnode hchild
    rwa [Nat.zero_add] at hlt
  nodup := by
    obtain ⟨-, hperm⟩ := isTree_iff.mp (@isTree_ofExpr pattern d body)
    exact hperm.nodup_iff.mpr List.nodup_range

/-- A place is referred to iff it is before the root. -/
theorem mem_references_ofExpr {pattern : String} {d : Dialect} {body : Expr Char} {i : Nat} :
    i ∈ (ofExpr pattern d body).references ↔ i < (ofExpr pattern d body).root := by
  obtain ⟨-, hperm⟩ := isTree_iff.mp (@isTree_ofExpr pattern d body)
  rw [hperm.mem_iff, List.mem_range]

end ParseTree

-- ---------------------------------------------------------------------------
-- Texts of expressions
-- ---------------------------------------------------------------------------

/-- No literal has the sign of `ε` or that of the end marker. -/
theorem Dialect.ne_of_isLiteral {d : Dialect} {c : Char} (h : d.isLiteral c = true) :
    c ≠ 'ε' ∧ c ≠ '⊣' := by
  constructor
  · rintro rfl
    cases d <;> exact absurd h (by decide)
  · rintro rfl
    cases d <;> exact absurd h (by decide)

/-- The first character of a leaf's text. -/
def Letter.sign : Letter → Char
  | char c => c
  | endMarker => '⊣'

namespace Expr

variable {a : Letter} {p : Nat} {e l r l' r' : Expr (Letter × Nat)} {s t : List Char}

/-- The sign of the outermost operator and the bracket behind it, or the sign of a leaf and the
colon behind it. -/
def opening : Expr (Letter × Nat) → List Char
  | epsilon => ['ε']
  | leaf (a, _) => [a.sign, ':']
  | concat _ _ => ['.', '(']
  | union _ _ => ['|', '(']
  | shuffle _ _ => ['&', '(']
  | star _ => ['*', '(']

/-- What comes after the opening. -/
def remainder : Expr (Letter × Nat) → List Char
  | epsilon => []
  | leaf (_, p) => Nat.toDigits 10 p
  | concat l r | union l r | shuffle l r =>
    l.text.toList ++ ',' :: ' ' :: (r.text.toList ++ [')'])
  | star e => e.text.toList ++ [')']

/-- The text of an expression is its opening and what comes behind it. Openings are short,
and tell the kind of expression. -/
theorem toList_text (e : Expr (Letter × Nat)) : e.text.toList = e.opening ++ e.remainder := by
  cases e with
  | epsilon => rfl
  | leaf a =>
    obtain ⟨a, p⟩ := a
    have hsign : a.text.toList = [a.sign] := by cases a <;> simp [Letter.text, Letter.sign]
    simp [text, opening, remainder, hsign]
  | concat l r | union l r | shuffle l r => simp [text, operatorText, opening, remainder]
  | star e => simp [text, opening, remainder]

/-- No literal of the expression looks like `ε` or the end marker. -/
def Legible (e : Expr (Letter × Nat)) : Prop :=
  ∀ c p, (Letter.char c, p) ∈ e.leaves → c ≠ 'ε' ∧ c ≠ '⊣'

theorem Legible.left {more : List (Letter × Nat)}
    (h : ∀ c p, (Letter.char c, p) ∈ l.leaves ++ more → c ≠ 'ε' ∧ c ≠ '⊣') : l.Legible :=
  fun c p hmem => h c p (List.mem_append_left _ hmem)

theorem Legible.right {more : List (Letter × Nat)}
    (h : ∀ c p, (Letter.char c, p) ∈ more ++ r.leaves → c ≠ 'ε' ∧ c ≠ '⊣') : r.Legible :=
  fun c p hmem => h c p (List.mem_append_right _ hmem)

/-- No sign of a legible leaf is that of `ε`. -/
theorem sign_ne_epsilon (h : (leaf (a, p)).Legible) : a.sign ≠ 'ε' := by
  cases a with
  | char c => exact (h c p List.mem_cons_self).1
  | endMarker => decide

/-- Signs of legible letters differ if the letters do. The end marker's sign is no
literal, so it is not taken for one. -/
theorem letter_eq_of_sign {b : Letter} {q : Nat} (ha : (leaf (a, p)).Legible)
    (hb : (leaf (b, q)).Legible) (h : a.sign = b.sign) : a = b := by
  cases a with
  | char c =>
    cases b with
    | char c' => exact congrArg Letter.char h
    | endMarker => exact absurd h (ha c p List.mem_cons_self).2
  | endMarker =>
    cases b with
    | char c' => exact absurd h.symm (hb c' q List.mem_cons_self).2
    | endMarker => rfl

/-- All openings but that of `ε` have two characters, and none begins as that of `ε`. So
the first characters of a text are enough to tell what it is the text of. -/
theorem eq_epsilon_or (h : e.Legible) :
    e = epsilon ∨ ∃ c c', e.opening = [c, c'] ∧ c ≠ 'ε' := by
  cases e with
  | epsilon => exact .inl rfl
  | leaf a => exact .inr ⟨a.1.sign, ':', rfl, sign_ne_epsilon h⟩
  | concat l r => exact .inr ⟨'.', '(', rfl, by decide⟩
  | union l r => exact .inr ⟨'|', '(', rfl, by decide⟩
  | shuffle l r => exact .inr ⟨'&', '(', rfl, by decide⟩
  | star e => exact .inr ⟨'*', '(', rfl, by decide⟩

/-- Two texts that begin alike open alike. For `ε` one character decides, for the others
two do. -/
theorem opening_append_inj {e' : Expr (Letter × Nat)} (he : e.Legible) (he' : e'.Legible)
    (h : e.opening ++ s = e'.opening ++ t) : e.opening = e'.opening ∧ s = t := by
  rcases eq_epsilon_or he with rfl | ⟨c, d, hopen, hne⟩
  · rcases eq_epsilon_or he' with rfl | ⟨c', d', hopen', hne'⟩
    · exact ⟨rfl, (List.cons.inj h).2⟩
    · rw [hopen'] at h
      exact absurd (List.cons.inj h).1.symm hne'
  · rcases eq_epsilon_or he' with rfl | ⟨c', d', hopen', hne'⟩
    · rw [hopen] at h
      exact absurd (List.cons.inj h).1 hne
    · exact List.append_inj h (by rw [hopen, hopen']; rfl)

/-- The text of an expression goes on as that of no other one, if no digit follows. A
digit could be taken for a part of the position before it. -/
def Separate (e : Expr (Letter × Nat)) : Prop :=
  ∀ e' s t, e'.Legible → Stops s → Stops t → e.text.toList ++ s = e'.text.toList ++ t →
    e = e' ∧ s = t

theorem stops_bracket (rest : List Char) : Stops (')' :: rest) := stops_cons (by decide)

/-- Two operands end where a comma and a bracket begin: neither of them can be a part of
an operand's text at that place, so both operands can be told from the text of the whole. -/
theorem Separate.operands (hl : Separate l) (hr : Separate r) (hl' : l'.Legible)
    (hr' : r'.Legible)
    (h : l.text.toList ++ ',' :: ' ' :: (r.text.toList ++ [')']) ++ s =
      l'.text.toList ++ ',' :: ' ' :: (r'.text.toList ++ [')']) ++ t) :
    l = l' ∧ r = r' ∧ s = t := by
  have hcomma : ∀ rest, Stops (',' :: rest) := fun _ => stops_cons (by decide)
  simp only [List.append_assoc, List.cons_append, List.nil_append] at h
  obtain ⟨hleft, hrest⟩ := hl l' _ _ hl' (hcomma _) (hcomma _) h
  obtain ⟨hright, hend⟩ := hr r' _ _ hr' (stops_bracket _) (stops_bracket _)
    (List.cons.inj (List.cons.inj hrest).2).2
  exact ⟨hleft, hright, (List.cons.inj hend).2⟩

/-- It is enough to look at expressions that open alike. -/
theorem separate_of_opening (he : e.Legible) (h : ∀ e' s t, e'.Legible → Stops s → Stops t →
    e.opening = e'.opening → e.remainder ++ s = e'.remainder ++ t → e = e' ∧ s = t) :
    Separate e := by
  intro e' s t he' hs ht htext
  rw [toList_text, toList_text, List.append_assoc, List.append_assoc] at htext
  obtain ⟨hopen, hrest⟩ := opening_append_inj he he' htext
  exact h e' s t he' hs ht hopen hrest

/-- No text of a legible expression goes on as that of another one. The induction is on
the expression: the opening tells the operator, and the operands are told by induction. -/
theorem separate (e : Expr (Letter × Nat)) (he : e.Legible) : Separate e := by
  induction e with
  | epsilon =>
    refine separate_of_opening he fun e' s t he' hs ht hopen hrest => ?_
    cases e' with
    | epsilon => exact ⟨rfl, hrest⟩
    | _ => simp [opening] at hopen
  | leaf a =>
    refine separate_of_opening he fun e' s t he' hs ht hopen hrest => ?_
    cases e' with
    | leaf b =>
      obtain ⟨a, p⟩ := a
      obtain ⟨b, q⟩ := b
      obtain rfl := letter_eq_of_sign he he' (List.cons.inj hopen).1
      obtain ⟨rfl, hst⟩ := digits_append_inj hs ht hrest
      exact ⟨rfl, hst⟩
    | _ => simp [opening] at hopen
  | concat l r ihl ihr | union l r ihl ihr | shuffle l r ihl ihr =>
    refine separate_of_opening he fun e' s t he' hs ht hopen hrest => ?_
    -- only an expression with the same operator is left
    cases e' <;> simp [opening] at hopen
    obtain ⟨rfl, rfl, hst⟩ :=
      (ihl (.left he)).operands (ihr (.right he)) (.left he') (.right he') hrest
    exact ⟨rfl, hst⟩
  | star e ih =>
    refine separate_of_opening he fun e' s t he' hs ht hopen hrest => ?_
    cases e' with
    | star e' =>
      simp only [remainder, List.append_assoc] at hrest
      obtain ⟨rfl, hend⟩ := ih he e' _ _ he' (stops_bracket _) (stops_bracket _) hrest
      exact ⟨rfl, (List.cons.inj hend).2⟩
    | _ => simp [opening] at hopen

/-- Legible expressions are told apart by their texts. -/
theorem text_inj {e' : Expr (Letter × Nat)} (he : e.Legible) (he' : e'.Legible)
    (h : e.text = e'.text) : e = e' :=
  (separate e he e' [] [] he' stops_nil stops_nil (by rw [h])).1

/-- The literals of a pattern are never mistaken for anything else, since none has the
sign of `ε` or of the end marker. -/
theorem legible_marked {d : Dialect} {text : List Char} {body : Expr Char}
    (h : Accounts d text body) : body.marked.Legible := by
  intro c p hmem
  rw [leaves_marked] at hmem
  have hletter := List.fst_mem_of_mem_zipIdx hmem
  have hleaf : c ∈ body.leaves := by simpa using hletter
  rw [h.leaves_eq] at hleaf
  exact Dialect.ne_of_isLiteral (List.mem_filter.mp hleaf).2

end Expr

-- ---------------------------------------------------------------------------
-- Compiled patterns
-- ---------------------------------------------------------------------------

namespace ParseTree

variable {pattern : String} {d : Dialect} {body : Expr Char}

/-- The tree of a pattern is printed as its expression is. -/
theorem text_ofExpr : (ofExpr pattern d body).text = body.marked.text := by
  have hne : (ofExpr pattern d body).nodes ≠ [] := (isTree_iff.mp isTree_ofExpr).1
  have hroot : (ofExpr pattern d body).root ∉ (ofExpr pattern d body).references := fun hmem =>
    Nat.lt_irrefl _ (mem_references_ofExpr.mp hmem)
  obtain ⟨e, he, htext⟩ := ordered_ofExpr.text_eq hne hroot
  rw [expr?_ofExpr, ← Expr.marked_eq_number] at he
  rw [htext, Option.some.inj he]

/-- The tree is printed as its expression is written from the root down, out of a table from which
each text is taken once, and no other tree is printed like it. -/
structure PrintedFaithfully (t : ParseTree) : Prop where
  text_eq : ∃ e, t.expr? = some e ∧ t.text = e.text
  takenOnce : t.TextsTakenOnce
  nodes_eq : ∀ o pattern u, compile o pattern = .ok u → u.text = t.text → u.nodes = t.nodes

end ParseTree

/-- **Printed trees can be read back**: what compiles is printed as its expression is
written, with each text taken once, and trees that are printed alike have the same nodes. -/
theorem compile_printedFaithfully {o : Options} {pattern : String} {t : ParseTree}
    (h : compile o pattern = .ok t) : t.PrintedFaithfully := by
  obtain ⟨body, hread, rfl⟩ := compile_eq_ok_iff.mp h
  refine ⟨⟨body.marked, ?_, ParseTree.text_ofExpr⟩, ?_, ?_⟩
  · rw [ParseTree.expr?_ofExpr, ← Expr.marked_eq_number]
  · exact ParseTree.ordered_ofExpr.textsTakenOnce fun i hi =>
      ParseTree.mem_references_ofExpr.mpr hi
  · intro o' pattern' u hu htext
    obtain ⟨body', hread', rfl⟩ := compile_eq_ok_iff.mp hu
    rw [ParseTree.text_ofExpr, ParseTree.text_ofExpr] at htext
    have hmarked : body'.marked = body.marked :=
      Expr.text_inj (Expr.legible_marked (accounts_of_read hread'))
        (Expr.legible_marked (accounts_of_read hread)) htext
    rw [ParseTree.nodes_ofExpr, ParseTree.nodes_ofExpr, hmarked]

/-- Signs of operators as literals, in the dialect that has more of them, so that a sign
alone does not tell an operator. -/
theorem compile_printedFaithfully_of_signs :
    ∃ t, compile {} ".&,:1*|#" = .ok t ∧ t.PrintedFaithfully := by
  have hscan : firstError? {} ".&,:1*|#" = none := by decide
  obtain ⟨body, h⟩ := exists_compile_eq_ok hscan
  exact ⟨_, h, compile_printedFaithfully h⟩

end PatternAutomata
