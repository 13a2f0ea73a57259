import PatternAutomata.ParseTree.Language

/-!
# Pattern automata — the expression of a parse tree

A list of nodes is read back into an expression from a node on, by following the
places of the children. Nothing is taken for granted about the list: a child that
is not there, or does not come before its parent, leaves no expression.

## Results

* `exprAt?_eq`            — a list of nodes that holds an expression is read back to it.
* `ParseTree.expr?_ofExpr` — so is the tree of a pattern, which ends with the end marker.
-/

namespace PatternAutomata

/-- The expression of the node at place `id`. -/
def exprAt? (nodes : List Node) (id : Nat) : Option (Expr (Letter × Nat)) :=
  match nodes[id]? with
  | none => none
  | some .epsilon => some .epsilon
  | some (.char c p) => some (.leaf (.char c, p))
  | some (.endMarker p) => some (.leaf (.endMarker, p))
  | some (.concat l r) =>
    if l < id ∧ r < id then do return .concat (← exprAt? nodes l) (← exprAt? nodes r) else none
  | some (.union l r) =>
    if l < id ∧ r < id then do return .union (← exprAt? nodes l) (← exprAt? nodes r) else none
  | some (.shuffle l r) =>
    if l < id ∧ r < id then do return .shuffle (← exprAt? nodes l) (← exprAt? nodes r) else none
  | some (.star e) => if e < id then do return .star (← exprAt? nodes e) else none
termination_by id

/-- A list of nodes that holds an expression is read back to it from its last node. -/
theorem exprAt?_eq {nodes : List Node} {e : Expr (Letter × Nat)} {base : Nat}
    (h : Holds nodes base e) : exprAt? nodes (base + e.size - 1) = some e := by
  induction e generalizing base with
  | epsilon =>
    rw [exprAt?, show base + Expr.epsilon.size - 1 = base from rfl, h.single rfl]
  | leaf a =>
    obtain ⟨c | _, p⟩ := a <;>
      rw [exprAt?, show base + (Expr.leaf _).size - 1 = base from rfl, h.single rfl]
  | concat l r ihl ihr | union l r ihl ihr | shuffle l r ihl ihr =>
    obtain ⟨hl, hr, hnode⟩ := Holds.binary h
    have hlpos := l.size_pos
    have hrpos := r.size_pos
    rw [exprAt?, Expr.size, hnode]
    dsimp only
    rw [if_pos (by omega), ihl hl, ihr hr]
    rfl
  | star e ih =>
    obtain ⟨he, hnode⟩ := h.star
    have hpos := e.size_pos
    rw [exprAt?, Expr.size, hnode]
    dsimp only
    rw [if_pos (by omega), ih he]
    rfl

namespace ParseTree

/-- The expression of the root. -/
def expr? (t : ParseTree) : Option (Expr (Letter × Nat)) := exprAt? t.nodes t.root

/-- The tree of a pattern is read back to the pattern's expression with the end marker behind
it, all positions numbered from 1 on. -/
theorem expr?_ofExpr {pattern : String} {d : Dialect} {body : Expr Char} :
    (ofExpr pattern d body).expr? =
      some ((Expr.concat (body.map .char) (.leaf .endMarker)).number 1) := by
  have hroot : (ofExpr pattern d body).root = 0 + body.marked.size - 1 := by
    simp [root, nodes_ofExpr, Expr.length_nodes]
  rw [expr?, hroot, exprAt?_eq holds_ofExpr, Expr.marked, Expr.numberFrom_eq]

end ParseTree

end PatternAutomata
