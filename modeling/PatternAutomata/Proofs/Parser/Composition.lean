import PatternAutomata.Proofs.Parser.Listing
import PatternAutomata.Proofs.Parser.Surroundings

/-!
# Pattern automata — patterns put together from patterns

Patterns in brackets can be put together with any operator, whatever they look
like inside. The list of nodes then is put together from theirs: a node refers to
others by their places, and a literal carries its position, so the nodes of the
second operand are those of its own tree, moved by as many places and positions as
the first one takes up (`Node.shift`). Brackets are no nodes at all.

## Results

* `Expr.nodes_shift` — an expression that starts later has the same nodes, moved.
* `compile_composed` — what patterns in brackets compile to, alone, repeated and joined.
-/

namespace PatternAutomata

/-- The same node among others: its children are `places` further on, and its position is
higher by `positions`. -/
def Node.shift (places positions : Nat) : Node → Node
  | char c p => char c (p + positions)
  | epsilon => epsilon
  | endMarker p => endMarker (p + positions)
  | concat l r => concat (l + places) (r + places)
  | union l r => union (l + places) (r + places)
  | shuffle l r => shuffle (l + places) (r + places)
  | star e => star (e + places)

/-- What starts later has the same nodes, moved. The two numbers are independent: places
count nodes, and positions count leaves. The induction is on the expression. -/
theorem Expr.nodes_shift (e : Expr Letter) (first base places positions : Nat) :
    (e.number (first + positions)).nodes (base + places) =
      ((e.number first).nodes base).map (Node.shift places positions) := by
  induction e generalizing first base with
  | epsilon => rfl
  | leaf a => cases a <;> rfl
  | concat l r ihl ihr | union l r ihl ihr | shuffle l r ihl ihr =>
    -- every operand has a node, so the place of its last one moves like all others
    have hl := l.size_pos
    have hr := r.size_pos
    have hfirst : first + positions + l.width = first + l.width + positions := by omega
    have hbase : base + places + l.size = base + l.size + places := by omega
    have htop : base + places + l.size - 1 = base + l.size - 1 + places := by omega
    have htop' : base + l.size + places + r.size - 1 = base + l.size + r.size - 1 + places := by
      omega
    simp only [number, nodes, size_number, hfirst, hbase, ihl, ihr, List.map_append,
      List.map_cons, List.map_nil, Node.shift, ← htop, ← htop']
  | star e ih =>
    have he := e.size_pos
    have htop : base + places + e.size - 1 = base + e.size - 1 + places := by omega
    simp only [number, nodes, size_number, ih, List.map_append, List.map_cons, List.map_nil,
      Node.shift, htop]

-- ---------------------------------------------------------------------------
-- Blocks
-- ---------------------------------------------------------------------------

/-- The nodes of a pattern without the end marker and the root. -/
abbrev Block : Type := List Node

namespace Block

/-- The end marker is put behind a block with this many literals, then the root. -/
def closed (block : Block) (literals : Nat) : List Node :=
  block ++ [.endMarker (literals + 1), .concat (block.length - 1) block.length]

/-- A second block is put behind one with this many literals, then the node that joins them. -/
def joined (left : Block) (join : Nat → Nat → Node) (right : Block) (literals : Nat) : Block :=
  left ++ right.map (Node.shift left.length literals) ++
    [join (left.length - 1) (left.length + right.length - 1)]

/-- The node is put behind a block that repeats it. -/
def starred (block : Block) : Block := block ++ [.star (block.length - 1)]

end Block

/-- The nodes of a tree without the end marker and the root, which are its last two. -/
def ParseTree.block (t : ParseTree) : Block := t.nodes.take (t.nodes.length - 2)

/-- The block of an expression, its positions numbered from 1. -/
def Expr.block (body : Expr Char) : Block := ((body.map Letter.char).number 1).nodes 0

namespace Expr

variable {e l r : Expr Char}

theorem length_block : e.block.length = (e.map Letter.char).size := by
  rw [block, length_nodes, size_number]

theorem block_star : (star e).block = e.block.starred := by
  rw [Block.starred, length_block]
  simp only [block, map, number, nodes, size_number, Nat.zero_add]

/-- The right operand's nodes start behind those of the left one. -/
theorem block_join {join : Nat → Nat → Node} {e : Expr Char}
    (h : e.block = l.block ++ (((r.map Letter.char).number (1 + l.width)).nodes
      (0 + l.block.length) ++
        [join (0 + l.block.length - 1) (0 + l.block.length + r.block.length - 1)])) :
    e.block = l.block.joined join r.block l.width := by
  rw [h, nodes_shift, Block.joined, List.append_assoc, Nat.zero_add]
  rfl

/-- Two blocks behind one another, joined by their operator. A union and an interleaving
are put together in the same way. -/
theorem block_concat :
    (concat l r).block = l.block.joined .concat r.block l.width :=
  block_join (by simp only [block, map, number, nodes, length_nodes, size_number, width_map])

theorem block_union :
    (union l r).block = l.block.joined .union r.block l.width :=
  block_join (by simp only [block, map, number, nodes, length_nodes, size_number, width_map])

theorem block_shuffle :
    (shuffle l r).block = l.block.joined .shuffle r.block l.width :=
  block_join (by simp only [block, map, number, nodes, length_nodes, size_number, width_map])

end Expr

namespace ParseTree

variable {pattern : String} {d : Dialect} {body : Expr Char}

theorem nodes_eq_closed : (ofExpr pattern d body).nodes = body.block.closed body.width := by
  rw [nodes_ofExpr, Expr.marked_eq, Block.closed, Expr.length_block]
  simp only [Expr.nodes, Expr.block, Expr.size_number, Expr.size, Nat.zero_add,
    Nat.add_sub_cancel, List.singleton_append]

theorem block_ofExpr : (ofExpr pattern d body).block = body.block := by
  unfold block
  rw [nodes_eq_closed, Block.closed, List.length_append]
  exact List.take_left

end ParseTree

-- ---------------------------------------------------------------------------
-- Texts
-- ---------------------------------------------------------------------------

/-- A pattern as a group. -/
def bracketed (pattern : String) : String := "(" ++ pattern ++ ")"

theorem toList_bracketed {pattern : String} :
    (bracketed pattern).toList = '(' :: pattern.toList ++ [')'] := by
  simp [bracketed]

/-- The pattern compiles, and these are the nodes of its tree. -/
def CompilesTo (o : Options) (pattern : String) (nodes : List Node) : Prop :=
  ∃ t, compile o pattern = .ok t ∧ t.nodes = nodes

/-- What patterns in brackets compile to, given the blocks of nodes and the numbers of
literals that they have alone. One field for each way to put them together. -/
structure Composed (o : Options) (p q : String) (left right : Block) (n m : Nat) : Prop where
  group : CompilesTo o (bracketed p) (left.closed n)
  star : CompilesTo o (bracketed p ++ "*") (left.starred.closed n)
  concat : CompilesTo o (bracketed p ++ bracketed q) ((left.joined .concat right n).closed (n + m))
  union : CompilesTo o (bracketed p ++ "|" ++ bracketed q)
    ((left.joined .union right n).closed (n + m))
  shuffle : o.dialect.hasInterleave = true → CompilesTo o (bracketed p ++ "&" ++ bracketed q)
    ((left.joined .shuffle right n).closed (n + m))

section Read

open Rule

variable {o : Options} {pattern p q : String} {e l r : Expr Char} {strength : Nat}

/-- In brackets, a pattern that is read serves everywhere, with one group more around it. -/
theorem atStrength_bracketed (h : (read o pattern).result = .ok e) :
    AtStrength (groupOf (regexp o.dialect (o.maxDepth + 1) o.maxDepth)) 3
      (bracketed pattern).toList e := by
  rw [toList_bracketed]
  exact (readsGroup_groupOf (reads_of_read h (Nat.le_refl o.maxDepth))).atStrength

/-- What serves anywhere serves as a whole pattern. -/
theorem compilesTo_of_atStrength {text : List Char} (hpattern : pattern.toList = text)
    (h : AtStrength (groupOf (regexp o.dialect (o.maxDepth + 1) o.maxDepth)) strength text e) :
    CompilesTo { o with maxDepth := o.maxDepth + 1 } pattern (e.block.closed e.width) := by
  subst hpattern
  exact ⟨_, compile_eq_ok_iff.mpr ⟨e, read_of_reads h.reads_expression, rfl⟩,
    ParseTree.nodes_eq_closed⟩

/-- One step per operator, each behind brackets. Brackets make the strongest operand, so
it can stand on either side of any operator. -/
theorem composed_of_read (hl : (read o p).result = .ok l) (hr : (read o q).result = .ok r) :
    Composed { o with maxDepth := o.maxDepth + 1 } p q l.block r.block l.width r.width where
  group := compilesTo_of_atStrength rfl (atStrength_bracketed hl)
  star := by
    rw [← Expr.block_star]
    exact compilesTo_of_atStrength String.toList_append (atStrength_bracketed hl).star
  concat := by
    -- a `(` begins a factor, so the two groups are read as factors of one concatenation
    have hstarts : ∀ rest,
        (Token.ofRest o.dialect ((bracketed q).toList ++ rest)).startsFactor = true := by
      intro rest
      rw [toList_bracketed]
      rfl
    rw [← Expr.block_concat]
    exact compilesTo_of_atStrength String.toList_append
      (((atStrength_bracketed hl).mono (Nat.le_succ 2)).concat (atStrength_bracketed hr) hstarts)
  union := by
    have hleft := (atStrength_bracketed hl).mono (by omega : 1 ≤ 3)
    have hright := ((atStrength_bracketed hr).mono (Nat.le_succ 2)).reads_concatenation
    have hunion : AtStrength _ 1 ((bracketed p).toList ++ '|' :: (bracketed q).toList)
        (.union l r) := Continues.operator hleft hright rfl ⟨nofun, rfl⟩
    rw [← Expr.block_union]
    exact compilesTo_of_atStrength (by simp) hunion
  shuffle hinterleave := by
    have hleft := (atStrength_bracketed hl).mono (by omega : 0 ≤ 3)
    have hright := ((atStrength_bracketed hr).mono (by omega : 1 ≤ 3)).reads_alternation
    have hshuffle : AtStrength _ 0 ((bracketed p).toList ++ '&' :: (bracketed q).toList)
        (.shuffle l r) :=
      Continues.operator hleft hright (ofChar_amp hinterleave) ⟨⟨nofun, rfl⟩, nofun⟩
    rw [← Expr.block_shuffle]
    exact compilesTo_of_atStrength (by simp) hshuffle

end Read

/-- **Patterns compose**: in brackets they can be put together, with one group more around
them. The nodes are those of the first, those of the second moved behind them, and the one
of the operator. -/
theorem compile_composed {o : Options} {p q : String} {t u : ParseTree}
    (hp : compile o p = .ok t) (hq : compile o q = .ok u) :
    t.nodes = t.block.closed (o.dialect.literals p.toList).length ∧
      u.nodes = u.block.closed (o.dialect.literals q.toList).length ∧
      Composed { o with maxDepth := o.maxDepth + 1 } p q t.block u.block
        (o.dialect.literals p.toList).length (o.dialect.literals q.toList).length := by
  obtain ⟨l, hl, rfl⟩ := compile_eq_ok_iff.mp hp
  obtain ⟨r, hr, rfl⟩ := compile_eq_ok_iff.mp hq
  rw [ParseTree.block_ofExpr, ParseTree.block_ofExpr, (accounts_of_read hl).length_literals,
    (accounts_of_read hr).length_literals]
  exact ⟨ParseTree.nodes_eq_closed, ParseTree.nodes_eq_closed, composed_of_read hl hr⟩

/-- Patterns whose last operands are left out, one of them with a group already. -/
theorem compile_composed_of_open_ends :
    let o : Options := { dialect := .parallel, maxDepth := 1 }
    ∃ t u, compile o "(|a)**b&" = .ok t ∧ compile o "c|" = .ok u ∧
      t.nodes = t.block.closed (o.dialect.literals "(|a)**b&".toList).length ∧
      u.nodes = u.block.closed (o.dialect.literals "c|".toList).length ∧
      Composed { o with maxDepth := o.maxDepth + 1 } "(|a)**b&" "c|" t.block u.block
        (o.dialect.literals "(|a)**b&".toList).length (o.dialect.literals "c|".toList).length := by
  intro o
  have hscan : firstError? o "(|a)**b&" = none := by decide
  have hscan' : firstError? o "c|" = none := by decide
  obtain ⟨l, hp⟩ := exists_compile_eq_ok hscan
  obtain ⟨r, hq⟩ := exists_compile_eq_ok hscan'
  exact ⟨_, _, hp, hq, compile_composed hp hq⟩

end PatternAutomata
