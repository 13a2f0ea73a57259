import PatternAutomata.Proofs.Parser.Consumed

/-!
# Pattern automata — the list of nodes of a pattern

A parse tree is a list of nodes with tables beside it, and all that is computed
from it later takes for granted that these fit together. After a parse they do,
and they say of the text what the text itself says: which literals are where, and
how often each operator was written.

## Results

* `Expr.signs_perm`        — the nodes of an expression have the signs of its operators.
* `Parser.parse_wellFormed` — every parse that succeeds makes such a list.
-/

namespace PatternAutomata

/-- The sign of the operator that a node applies, if it has one. -/
def Node.sign? : Node → Option Char
  | union _ _ => some '|'
  | shuffle _ _ => some '&'
  | star _ => some '*'
  | _ => none

namespace Expr

variable {α β : Type}

/-- What the leaves are does not matter for the signs. -/
theorem signs_map (f : α → β) (e : Expr α) : (e.map f).signs = e.signs := by
  induction e with
  | epsilon => rfl
  | leaf => rfl
  | concat l r ihl ihr | union l r ihl ihr | shuffle l r ihl ihr => simp only [map, signs, ihl, ihr]
  | star e ih => simp only [map, signs, ih]

theorem signs_marked (body : Expr Char) : body.marked.signs = body.signs := by
  have hnumbered := map_fst_number (concat (body.map Letter.char) (leaf Letter.endMarker)) 1
  rw [marked_eq_number, ← signs_map (·.1), hnumbered, signs, signs_map, signs, List.append_nil]

/-- The nodes have the signs of the operators, in another order: a node stands behind its
operands, and a sign between them. -/
theorem signs_perm (e : Expr (Letter × Nat)) (base : Nat) :
    ((e.nodes base).filterMap Node.sign?).Perm e.signs := by
  induction e generalizing base with
  | epsilon => exact .refl _
  | leaf a => obtain ⟨_ | _, p⟩ := a <;> exact .refl _
  | concat l r ihl ihr =>
    simpa [nodes, signs, Node.sign?, List.filterMap_cons] using
      (ihl base).append (ihr (base + l.size))
  | union l r ihl ihr | shuffle l r ihl ihr =>
    -- the sign is moved from behind the right operand to before it
    have hrest : ∀ sign, ((r.nodes (base + l.size)).filterMap Node.sign? ++ [sign]).Perm
        (sign :: r.signs) := fun sign =>
      ((ihr _).append_right [sign]).trans (List.perm_append_singleton sign r.signs)
    simpa [nodes, signs, Node.sign?] using (ihl base).append (hrest _)
  | star e ih => simpa [nodes, signs, Node.sign?] using (ih base).append_right _

end Expr

/-- The literals of a text. -/
def Dialect.literals (d : Dialect) (text : List Char) : List Char := text.filter d.isLiteral

/-- An expression has as many leaves as literals are in its text. -/
theorem Accounts.length_literals {d : Dialect} {text : List Char} {e : Expr Char}
    (h : Accounts d text e) : (d.literals text).length = e.width := by
  rw [Dialect.literals, ← h.leaves_eq, Expr.length_leaves]

/-- The list of nodes is the post-order listing of one tree with the end marker on its
right, and leaves, tables and numbers of operators are those of the text. The text is
mentioned here with its literals and signs only, so nothing of the grammar is. -/
structure ParseTree.WellFormed (t : ParseTree) (d : Dialect) (text : List Char) : Prop where
  check_eq : t.check = .ok ()
  postOrder : ∃ body, t.nodes =
    (Expr.concat body (.leaf (.endMarker, (d.literals text).length + 1))).nodes 0
  root_eq : ∃ l r, t.nodes[t.root]? = some (.concat l r) ∧
    t.nodes[r]? = some (.endMarker ((d.literals text).length + 1))
  child_lt : ∀ (i : Nat) (node : Node), t.nodes[i]? = some node → ∀ child ∈ node.children, child < i
  one_parent : ∀ i < t.root, t.references.count i = 1
  leaves_eq : t.nodes.filterMap Node.leaf? =
    ((d.literals text).map Letter.char ++ [Letter.endMarker]).zipIdx 1
  positions_eq : t.positions.toList = (d.literals text).map .char ++ [.endMarker]
  symbols_eq : t.symbols = (d.literals text).eraseDups
  stars_eq : t.nodes.countP (· matches .star _) = text.count '*'
  unions_eq : t.nodes.countP (· matches .union _ _) = text.count '|'
  shuffles_eq : t.nodes.countP (· matches .shuffle _ _) =
    if d.hasInterleave then text.count '&' else 0

namespace ParseTree

variable {pattern : String} {d : Dialect} {text : List Char} {body : Expr Char}

/-- Nodes are counted by the signs of their operators. Signs are in the order of the text
and nodes in post-order, so they are compared as bags. -/
theorem countP_nodes_eq {p : Node → Bool} {c : Char} (hp : ∀ node, p node = (node.sign? == some c))
    (hbody : Accounts d text body) :
    (ofExpr pattern d body).nodes.countP p = (text.filter d.isSign).count c := by
  have hcount : (body.marked.nodes 0).countP p =
      ((body.marked.nodes 0).filterMap Node.sign?).count c := by
    rw [List.count, List.countP_filterMap]
    refine List.countP_congr fun node _ => ?_
    rw [hp]
    cases node.sign? <;> simp
  rw [nodes_ofExpr, hcount, (body.marked.signs_perm 0).count_eq, Expr.signs_marked, hbody.signs_eq]

theorem count_references_ofExpr {i : Nat} (hi : i < (ofExpr pattern d body).root) :
    (ofExpr pattern d body).references.count i = 1 := by
  obtain ⟨-, hperm⟩ := isTree_iff.mp (@isTree_ofExpr pattern d body)
  rw [hperm.count_eq, List.count_range, if_pos hi]

/-- The tree of an expression that accounts for a text is well-formed, and says what the text
says. -/
theorem wellFormed_ofExpr (hbody : Accounts d text body) :
    (ofExpr pattern d body).WellFormed d text := by
  have hleaves : d.literals text = body.leaves := hbody.leaves_eq.symm
  have hwidth := hbody.length_literals
  exact {
    check_eq := check_ofExpr
    postOrder := ⟨_, by rw [nodes_ofExpr, Expr.marked_eq, hwidth]⟩
    root_eq := hwidth ▸ exists_root_ofExpr
    child_lt := fun i node hnode child hchild => by
      have hlt := lt_of_checkNodes checkNodes_ofExpr hnode hchild
      rwa [Nat.zero_add] at hlt
    one_parent := fun i => count_references_ofExpr
    leaves_eq := by rw [nodes_ofExpr, Expr.filterMap_leaf?_nodes, Expr.leaves_marked, hleaves]
    positions_eq := by rw [positions_ofExpr, letters_marked, hleaves]
    symbols_eq := by rw [symbols_ofExpr, hleaves]
    -- each operator has a node, and each of its signs in the text is one of these
    stars_eq := by
      rw [countP_nodes_eq (c := '*') (by intro node; cases node <;> rfl) hbody]
      exact List.count_filter Dialect.isSign_star
    unions_eq := by
      rw [countP_nodes_eq (c := '|') (by intro node; cases node <;> rfl) hbody]
      exact List.count_filter Dialect.isSign_bar
    shuffles_eq := by
      rw [countP_nodes_eq (c := '&') (by intro node; cases node <;> rfl) hbody]
      split
      · rename_i hd
        exact List.count_filter (Dialect.isSign_amp.trans hd)
      · rename_i hd
        simp [List.count_eq_zero, Dialect.isSign_amp, hd] }

end ParseTree

/-- **Parses are well-formed**: a parse makes a list of nodes in which children come first
and positions are in order, and which says what the text says, or it rejects the text. No
check of the list fails, and no token is left over. -/
theorem Parser.parse_wellFormed (p : Parser) (pattern : String) :
    match (p.parse pattern).1 with
    | .ok t => t.WellFormed p.options.dialect pattern.toList
    | .error e => ∃ rejection, e = .rejected rejection := by
  cases hscan : firstError? p.options pattern with
  | none =>
    obtain ⟨body, hcompile⟩ := exists_compile_eq_ok hscan
    have hparse : (p.parse pattern).1 = .ok (.ofExpr pattern p.options.dialect body) := hcompile
    obtain ⟨body', hread, hbody⟩ := compile_eq_ok_iff.mp hcompile
    rw [hparse, hbody]
    exact ParseTree.wellFormed_ofExpr (accounts_of_read hread)
  | some e =>
    have hparse : (p.parse pattern).1 = .error (.rejected e) := compile_eq_error hscan
    rw [hparse]
    exact ⟨e, rfl⟩

end PatternAutomata
