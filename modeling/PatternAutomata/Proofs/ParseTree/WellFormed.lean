import PatternAutomata.Parser
import PatternAutomata.ParseTree.Language
import PatternAutomata.Proofs.Outcome

/-!
# Pattern automata — the trees of patterns are trees

`ParseTree.check` looks at a list of nodes after it was made. It never finds
anything: children are listed before their parent and once, positions are counted
from left to right, and the end marker comes last, whatever the expression is. So
a pattern that is read has a tree, and compiling it is nothing but that tree.

## Results

* `filterMap_leaf?_nodes` — the leaves of an expression are listed in their order.
* `references_perm`     — every node but the root is referred to once.
* `checkNodes_number`   — children come first, and positions are in order.
* `check_ofExpr`        — the tree of every expression passes its check.
* `compile_eq_ok_iff`   — what compiles is the tree of what is read.
-/

namespace PatternAutomata

-- ---------------------------------------------------------------------------
-- Leaves
-- ---------------------------------------------------------------------------

/-- What a node with a position reads, and the position. -/
def Node.leaf? : Node → Option (Letter × Nat)
  | char c p => some (.char c, p)
  | endMarker p => some (.endMarker, p)
  | _ => none

theorem Node.position?_eq (node : Node) : node.position? = node.leaf?.map (·.2) := by
  cases node <;> rfl

theorem Node.leaf?_eq_char_iff {node : Node} {c : Char} {p : Nat} :
    node.leaf? = some (.char c, p) ↔ node = .char c p := by
  cases node <;> simp [leaf?]

namespace Expr

/-- The leaves of an expression are listed in their order: from left to right, as its
nodes are, with the inner ones left out. -/
theorem filterMap_leaf?_nodes (e : Expr (Letter × Nat)) (base : Nat) :
    (e.nodes base).filterMap Node.leaf? = e.leaves := by
  induction e generalizing base with
  | epsilon => rfl
  | leaf a => obtain ⟨_ | _, p⟩ := a <;> rfl
  | concat l r ihl ihr | union l r ihl ihr | shuffle l r ihl ihr =>
    simp [nodes, leaves, Node.leaf?, ihl, ihr]
  | star e ih => simp [nodes, leaves, Node.leaf?, ih]

theorem mem_leaves_iff {e : Expr (Letter × Nat)} (base : Nat) {a : Letter × Nat} :
    a ∈ e.leaves ↔ ∃ node ∈ e.nodes base, node.leaf? = some a := by
  rw [← filterMap_leaf?_nodes e base, List.mem_filterMap]

end Expr

-- ---------------------------------------------------------------------------
-- References
-- ---------------------------------------------------------------------------

namespace Expr

/-- The references of two subtrees and of the node on top of them. Of each subtree the
last place is missing, which is its root: it is the node on top that refers to it. -/
theorem range_binary (base i j : Nat) :
    List.range' base i ++ (List.range' (base + (i + 1)) j ++ [base + i, base + (i + 1) + j]) |>.Perm
      (List.range' base (i + 1 + (j + 1))) := by
  have hsplit : List.range' base (i + 1 + (j + 1)) =
      List.range' base i ++ [base + i] ++ (List.range' (base + (i + 1)) j ++
        [base + (i + 1) + j]) := by
    rw [← List.range'_append_1, List.range'_1_concat, List.range'_1_concat]
  rw [hsplit]
  grind

/-- If in both operands all places but the root are referred to once, so they are in the
whole. -/
theorem references_binary {l r : Expr (Letter × Nat)} {top : Node} {base : Nat}
    (htop : top.children = [base + l.size - 1, base + l.size + r.size - 1])
    (hl : ((l.nodes base).flatMap Node.children).Perm (List.range' base (l.size - 1)))
    (hr : ((r.nodes (base + l.size)).flatMap Node.children).Perm
      (List.range' (base + l.size) (r.size - 1))) :
    ((l.nodes base ++ (r.nodes (base + l.size) ++ [top])).flatMap Node.children).Perm
      (List.range' base (l.size + r.size)) := by
  have hlpos := l.size_pos
  have hrpos := r.size_pos
  have hrange := range_binary base (l.size - 1) (r.size - 1)
  -- no tree is empty, so its root is the place before its end
  rw [show l.size - 1 + 1 = l.size by omega, show r.size - 1 + 1 = r.size by omega,
    show base + (l.size - 1) = base + l.size - 1 by omega,
    show base + l.size + (r.size - 1) = base + l.size + r.size - 1 by omega] at hrange
  simp only [List.flatMap_append, List.flatMap_singleton, htop]
  exact (hl.append (hr.append_right _)).trans hrange

/-- Every node but the last is referred to once. The induction is on the expression, with
the place where its nodes begin left open. -/
theorem references_perm (e : Expr (Letter × Nat)) (base : Nat) :
    ((e.nodes base).flatMap Node.children).Perm (List.range' base (e.size - 1)) := by
  induction e generalizing base with
  | epsilon => exact .refl _
  | leaf a => obtain ⟨_ | _, p⟩ := a <;> exact .refl _
  | concat l r ihl ihr | union l r ihl ihr | shuffle l r ihl ihr =>
    exact references_binary rfl (ihl base) (ihr (base + l.size))
  | star e ih =>
    have hpos := e.size_pos
    simp only [nodes, List.flatMap_append, List.flatMap_singleton, size, Node.children]
    rw [show e.size + 1 - 1 = e.size - 1 + 1 by omega, List.range'_1_concat,
      show base + e.size - 1 = base + (e.size - 1) by omega]
    exact (ih base).append_right _

-- ---------------------------------------------------------------------------
-- Order
-- ---------------------------------------------------------------------------

/-- To number an expression adds no node. -/
theorem size_number (e : Expr Letter) (first : Nat) : (e.number first).size = e.size := by
  induction e generalizing first with
  | epsilon => rfl
  | leaf => rfl
  | concat l r ihl ihr | union l r ihl ihr | shuffle l r ihl ihr =>
    simp only [number, size, ihl, ihr]
  | star e ih => simp only [number, size, ih]

/-- Letters instead of characters are as many. -/
theorem width_map (f : Char → Letter) (e : Expr Char) : (e.map f).width = e.width := by
  induction e with
  | epsilon => rfl
  | leaf => rfl
  | concat l r ihl ihr | union l r ihl ihr | shuffle l r ihl ihr =>
    simp only [map, width, ihl, ihr]
  | star e ih => exact ih

/-- The end marker is numbered as if it were a literal behind all others. -/
theorem marked_eq_number (body : Expr Char) :
    body.marked = (concat (body.map Letter.char) (leaf Letter.endMarker)).number 1 := by
  unfold marked
  rw [numberFrom_eq]

theorem marked_eq (body : Expr Char) :
    body.marked = concat ((body.map Letter.char).number 1)
      (leaf (Letter.endMarker, body.width + 1)) := by
  rw [marked_eq_number, number, number, width_map, Nat.add_comm 1]

/-- The literals are numbered from 1 on, and the end marker after them. -/
theorem leaves_marked (body : Expr Char) :
    body.marked.leaves = (body.leaves.map Letter.char ++ [Letter.endMarker]).zipIdx 1 := by
  rw [marked_eq_number, leaves_number, leaves, leaves_map, leaves]

theorem length_leaves_marked (body : Expr Char) : body.marked.leaves.length = body.width + 1 := by
  rw [leaves_marked, List.length_zipIdx, List.length_append, List.length_map, length_leaves]
  rfl

end Expr

namespace ParseTree

/-- A node without a position passes if its children come before it, and the next position
stays the same. -/
theorem checkNodes_cons {node : Node} {rest : List Node} {id next : Nat}
    (hchildren : ∀ child ∈ node.children, child < id) (hposition : node.position? = none) :
    checkNodes id next (node :: rest) = checkNodes (id + 1) next rest := by
  have hfind : node.children.find? (id ≤ ·) = none :=
    List.find?_eq_none.mpr fun child hchild => by
      have hlt := hchildren child hchild
      simpa using hlt
  rw [checkNodes, hfind]
  dsimp only
  rw [hposition]

/-- In a list of nodes that was checked children come first. So a check that passes can be
used in place of the expression that the nodes were made of. -/
theorem lt_of_checkNodes {nodes : List Node} {id next last i child : Nat} {node : Node}
    (h : checkNodes id next nodes = .ok last) (hnode : nodes[i]? = some node)
    (hchild : child ∈ node.children) : child < id + i := by
  induction nodes generalizing id next i with
  | nil => exact nomatch hnode
  | cons top rest ih =>
    rw [checkNodes] at h
    cases hfind : top.children.find? (id ≤ ·) with
    | some late => simp [hfind] at h
    | none =>
      cases i with
      | zero =>
        obtain rfl := Option.some.inj hnode
        have hlt := List.find?_eq_none.mp hfind child hchild
        simpa using hlt
      | succ i =>
        -- whatever the position of the first node, the others were checked behind it
        have hrest : ∃ next', checkNodes (id + 1) next' rest = .ok last := by
          rw [hfind] at h
          dsimp only at h
          split at h
          · exact ⟨_, h⟩
          · split at h
            · exact ⟨_, h⟩
            · exact nomatch h
        obtain ⟨next', hrest⟩ := hrest
        have hlt := ih hrest hnode
        omega

/-- Children come before their parents, and the positions are in order. The check passes
over the nodes of an expression as over one step: its size further, and its width in
positions. -/
theorem checkNodes_number (e : Expr Letter) (id next : Nat) (rest : List Node) :
    checkNodes id next ((e.number next).nodes id ++ rest) =
      checkNodes (id + e.size) (next + e.width) rest := by
  induction e generalizing id next rest with
  | epsilon => rfl
  | leaf a =>
    cases a <;> simp [Expr.number, Expr.nodes, checkNodes, Node.children, Node.position?,
      Expr.size, Expr.width]
  | concat l r ihl ihr | union l r ihl ihr | shuffle l r ihl ihr =>
    have hlpos := l.size_pos
    have hrpos := r.size_pos
    simp only [Expr.number, Expr.nodes, List.append_assoc, Expr.size_number]
    -- both operands pass, and then the node on top, whose children are their roots
    rw [ihl, ihr, List.singleton_append, checkNodes_cons _ rfl]
    · simp only [Expr.size, Expr.width, Nat.add_assoc]
    · simp [Node.children]
      omega
  | star e ih =>
    have hpos := e.size_pos
    simp only [Expr.number, Expr.nodes, List.append_assoc, Expr.size_number]
    rw [ih, List.singleton_append, checkNodes_cons _ rfl]
    · rfl
    · simp [Node.children]
      omega

variable {pattern : String} {d : Dialect} {body : Expr Char}

theorem letters_marked : body.marked.leaves.map (·.1) = body.leaves.map .char ++ [.endMarker] := by
  rw [Expr.leaves_marked, List.zipIdx_map_fst]

theorem endPosition_ofExpr : (ofExpr pattern d body).endPosition = body.width + 1 := by
  unfold endPosition
  rw [← Array.length_toList, positions_ofExpr, List.length_map,
    Expr.length_leaves_marked]

/-- The nodes of a pattern form a tree, whose root comes last: the references are the
places before the root, in another order. -/
theorem isTree_ofExpr : (ofExpr pattern d body).isTree = true := by
  refine isTree_iff.mpr ⟨?_, ?_⟩
  · have hlength : (ofExpr pattern d body).nodes.length = body.marked.size := by
      rw [nodes_ofExpr, Expr.length_nodes]
    have hpos := body.marked.size_pos
    exact List.ne_nil_of_length_pos (by omega)
  · unfold references
    rw [root, nodes_ofExpr, Expr.length_nodes, List.range_eq_range']
    exact body.marked.references_perm 0

/-- The root puts the end marker, which has the last position, behind the pattern. It is
read off the list of nodes, where the marker is the node just before the root. -/
theorem exists_root_ofExpr : ∃ l r,
    (ofExpr pattern d body).nodes[(ofExpr pattern d body).root]? = some (.concat l r) ∧
      (ofExpr pattern d body).nodes[r]? = some (.endMarker (body.width + 1)) := by
  have hholds : Holds (ofExpr pattern d body).nodes 0 body.marked := holds_ofExpr
  rw [Expr.marked_eq] at hholds
  obtain ⟨-, hmarker, htop⟩ := Holds.binary hholds
  have hroot : (ofExpr pattern d body).root = 0 + (((body.map Letter.char).number 1).size +
      (Expr.leaf (Letter.endMarker, body.width + 1)).size + 1) - 1 := by
    unfold root
    rw [nodes_ofExpr, Expr.length_nodes, Expr.marked_eq, Nat.zero_add]
    rfl
  exact ⟨_, _, hroot ▸ htop, hmarker.single rfl⟩

theorem endsWithMarker_ofExpr : (ofExpr pattern d body).endsWithMarker = true := by
  obtain ⟨l, r, hroot, hmarker⟩ := @exists_root_ofExpr pattern d body
  unfold endsWithMarker
  rw [hroot, endPosition_ofExpr]
  exact decide_eq_true hmarker

/-- All nodes pass, and the check counts all positions. -/
theorem checkNodes_ofExpr : checkNodes 0 1 (ofExpr pattern d body).nodes =
    .ok ((ofExpr pattern d body).endPosition + 1) := by
  have hcheck := checkNodes_number (.concat (body.map Letter.char) (.leaf Letter.endMarker)) 0 1 []
  rw [List.append_nil] at hcheck
  rw [nodes_ofExpr, Expr.marked_eq_number, hcheck, checkNodes, endPosition_ofExpr, Expr.width,
    Expr.width_map, Nat.add_comm 1]
  rfl

/-- The tree of every expression passes its check, so the check never refuses a pattern
that was read. -/
theorem check_ofExpr : (ofExpr pattern d body).check = .ok () := by
  unfold check
  rw [checkNodes_ofExpr]
  simp [isTree_ofExpr, endsWithMarker_ofExpr]

end ParseTree

-- ---------------------------------------------------------------------------
-- Compiled patterns
-- ---------------------------------------------------------------------------

/-- What compiles is the tree of what is read. All that is known of the reader is carried
over to compiled patterns through this equivalence. -/
theorem compile_eq_ok_iff {o : Options} {pattern : String} {t : ParseTree} :
    compile o pattern = .ok t ↔
      ∃ body, (read o pattern).result = .ok body ∧ t = .ofExpr pattern o.dialect body := by
  unfold compile
  rw [Outcome.tree]
  cases (read o pattern).result with
  | error halt => simp
  | ok body =>
    dsimp only
    -- the check does not fail, so what is read is all that matters
    rw [ParseTree.check_ofExpr]
    constructor
    · intro h
      cases h
      exact ⟨body, rfl, rfl⟩
    · rintro ⟨_, hbody, rfl⟩
      cases hbody
      rfl

end PatternAutomata
