import PatternAutomata.Dialect
import PatternAutomata.Expr
import PatternAutomata.Fault

/-!
# Pattern automata — parse trees

A parse tree lists its nodes in post-order: children come before their parent,
the left subtree before the right one, and the root comes last. A node refers
to its children by their places in the list. Literals carry their position,
counted from 1 from left to right, and an end marker with the last position is
concatenated to the whole pattern.

Since children come first, whatever is computed from the bottom up takes one
pass over the list. `ParseTree.check` says what a list must satisfy to be such a
tree.

## Results

* `length_nodes`     — a tree of `n` nodes is listed as `n` nodes.
* `toList_pushNodes` — the list is what pushing node after node leads to.
* `isTree_iff`       — in a tree, every place before the root is a child once.
-/

namespace PatternAutomata

/-- What a position reads: a character, or the end of the input. -/
inductive Letter where
  | char (c : Char)
  | endMarker
  deriving DecidableEq, Repr

/-- The end marker has a sign that is no literal. -/
def Letter.text : Letter → String
  | char c => String.ofList [c]
  | endMarker => "⊣"

/-- A node of a parse tree. Children are places in the list of nodes. -/
inductive Node where
  | char (c : Char) (position : Nat)
  | epsilon
  | endMarker (position : Nat)
  | concat (left right : Nat)
  | union (left right : Nat)
  | shuffle (left right : Nat)
  | star (body : Nat)
  deriving DecidableEq, Repr

namespace Node

/-- The position of a leaf that has one; `ε` reads nothing and has none. -/
def position? : Node → Option Nat
  | char _ p | endMarker p => some p
  | _ => none

/-- The places of the children, the left one first. -/
def children : Node → List Nat
  | concat l r | union l r | shuffle l r => [l, r]
  | star e => [e]
  | _ => []

def isLeaf (n : Node) : Bool := n.children.isEmpty

def isShuffle : Node → Bool
  | shuffle _ _ => true
  | _ => false

end Node

namespace Expr

/-- The nodes of an expression over numbered letters in post-order, the first at place `base`. -/
def nodes (base : Nat) : Expr (Letter × Nat) → List Node
  | epsilon => [.epsilon]
  | leaf (.char c, p) => [.char c p]
  | leaf (.endMarker, p) => [.endMarker p]
  | concat l r =>
    l.nodes base ++ (r.nodes (base + l.size) ++
      [.concat (base + l.size - 1) (base + l.size + r.size - 1)])
  | union l r =>
    l.nodes base ++ (r.nodes (base + l.size) ++
      [.union (base + l.size - 1) (base + l.size + r.size - 1)])
  | shuffle l r =>
    l.nodes base ++ (r.nodes (base + l.size) ++
      [.shuffle (base + l.size - 1) (base + l.size + r.size - 1)])
  | star e => e.nodes base ++ [.star (base + e.size - 1)]

/-- A tree of `n` nodes is listed as `n` nodes, at whatever place the list starts. -/
theorem length_nodes (e : Expr (Letter × Nat)) (base : Nat) : (e.nodes base).length = e.size := by
  induction e generalizing base with
  | epsilon => rfl
  | leaf a => obtain ⟨_ | _, p⟩ := a <;> rfl
  | concat l r ihl ihr | union l r ihl ihr | shuffle l r ihl ihr =>
    simp only [nodes, size, List.length_append, List.length_singleton, ihl, ihr]
    omega
  | star e ih => simp only [nodes, size, List.length_append, List.length_singleton, ih]

/-- Appends the nodes of an expression to those before it. A child that was just listed is
the last node so far. -/
def pushNodes (before : Array Node) : Expr (Letter × Nat) → Array Node
  | epsilon => before.push .epsilon
  | leaf (.char c, p) => before.push (.char c p)
  | leaf (.endMarker, p) => before.push (.endMarker p)
  | concat l r =>
    let left := l.pushNodes before
    let top := left.size - 1
    let both := r.pushNodes left
    both.push (.concat top (both.size - 1))
  | union l r =>
    let left := l.pushNodes before
    let top := left.size - 1
    let both := r.pushNodes left
    both.push (.union top (both.size - 1))
  | shuffle l r =>
    let left := l.pushNodes before
    let top := left.size - 1
    let both := r.pushNodes left
    both.push (.shuffle top (both.size - 1))
  | star e =>
    let inner := e.pushNodes before
    inner.push (.star (inner.size - 1))

/-- The list is what pushing node after node leads to. Pushed nodes refer to their
children by how many nodes there were, which is what the places in the list say too. -/
theorem toList_pushNodes (e : Expr (Letter × Nat)) (before : Array Node) :
    (e.pushNodes before).toList = before.toList ++ e.nodes before.size := by
  -- what was pushed for an operand tells the place of the next one
  have hsize : ∀ (e : Expr (Letter × Nat)) (before : Array Node),
      (e.pushNodes before).toList = before.toList ++ e.nodes before.size →
        (e.pushNodes before).size = before.size + e.size := fun e before h => by
    rw [← Array.length_toList, h, List.length_append, length_nodes, Array.length_toList]
  induction e generalizing before with
  | epsilon => exact Array.toList_push
  | leaf a => obtain ⟨_ | _, p⟩ := a <;> exact Array.toList_push
  | concat l r ihl ihr | union l r ihl ihr | shuffle l r ihl ihr =>
    simp only [pushNodes, nodes, Array.toList_push, ihr, ihl, hsize _ _ (ihl _),
      hsize _ _ (ihr _), List.append_assoc]
  | star e ih =>
    simp only [pushNodes, nodes, Array.toList_push, ih, hsize _ _ (ih _), List.append_assoc]

/-- A pattern's expression with the end marker after it, all positions numbered. -/
def marked (body : Expr Char) : Expr (Letter × Nat) :=
  ((concat (body.map .char) (leaf .endMarker)).numberFrom 1).1

end Expr

/-- A tree as it is handed out: its pattern and dialect, the nodes in post-order, and the
tables of its literals and positions. Whether the nodes are a tree at all is looked at by
`check`. -/
structure ParseTree where
  pattern : String
  dialect : Dialect
  nodes : List Node
  /-- The distinct literals, in the order of their first occurrence. -/
  symbols : List Char
  /-- What the positions 1, 2, … read. -/
  positions : Array Letter
  deriving DecidableEq, Repr

namespace ParseTree

/-- The tree of a pattern that stands for `body`. -/
def ofExpr (pattern : String) (dialect : Dialect) (body : Expr Char) : ParseTree :=
  let marked := body.marked
  { pattern := pattern
    dialect := dialect
    nodes := (marked.pushNodes #[]).toList
    symbols := (body.leavesOnto []).eraseDups
    positions := (marked.leavesOnto []).toArray.map (·.1) }

theorem nodes_ofExpr {pattern : String} {d : Dialect} {body : Expr Char} :
    (ofExpr pattern d body).nodes = body.marked.nodes 0 :=
  Expr.toList_pushNodes body.marked #[]

theorem symbols_ofExpr {pattern : String} {d : Dialect} {body : Expr Char} :
    (ofExpr pattern d body).symbols = body.leaves.eraseDups := by
  rw [ofExpr, Expr.leavesOnto_eq, List.append_nil]

theorem positions_ofExpr {pattern : String} {d : Dialect} {body : Expr Char} :
    (ofExpr pattern d body).positions.toList = body.marked.leaves.map (·.1) := by
  simp [ofExpr, Expr.leavesOnto_eq]

def root (t : ParseTree) : Nat := t.nodes.length - 1

/-- The position of the end marker, which is the last. -/
def endPosition (t : ParseTree) : Nat := t.positions.size

def hasShuffle (t : ParseTree) : Bool := t.nodes.any Node.isShuffle

/-- What position `p` reads. -/
def letterAt (t : ParseTree) (p : Nat) : Except Fault Letter :=
  match p with
  | 0 => .error .outOfRange
  | i + 1 => (t.positions[i]?).elim (.error .outOfRange) .ok

-- ---------------------------------------------------------------------------
-- Well-formed lists
-- ---------------------------------------------------------------------------

/-- Checks the nodes from place `id` on: children come first, and positions count on from
`next`. Answers the position that would come next. -/
def checkNodes (id next : Nat) : List Node → Except Fault Nat
  | [] => .ok next
  | node :: rest =>
    match node.children.find? (id ≤ ·) with
    | some child => .error (.childNotBefore id child)
    | none =>
      match node.position? with
      | none => checkNodes (id + 1) next rest
      | some p =>
        if p = next then checkNodes (id + 1) (next + 1) rest
        else .error (.misplaced id p next)

/-- All references to children, in the order of the nodes. -/
def references (t : ParseTree) : List Nat := t.nodes.flatMap Node.children

/-- Every node but the root is the child of exactly one node, and the root of none. -/
def isTree (t : ParseTree) : Bool :=
  !t.nodes.isEmpty && t.references.mergeSort = List.range t.root

/-- In a tree, every place before the root is a child once. Sorting the references is how
it is looked at; that they are a permutation of the places is what it means. -/
theorem isTree_iff {t : ParseTree} :
    t.isTree = true ↔ t.nodes ≠ [] ∧ t.references.Perm (List.range t.root) := by
  rw [isTree, Bool.and_eq_true, Bool.not_eq_true', List.isEmpty_eq_false_iff, decide_eq_true_iff]
  refine and_congr_right fun _ => ⟨fun h => h ▸ (List.mergeSort_perm _ _).symm, fun h => ?_⟩
  -- a sorted list is determined by what it holds
  have hsorted : t.references.mergeSort.Pairwise (· ≤ ·) :=
    (List.pairwise_mergeSort (by simpa using fun a b c => Nat.le_trans) (by
      simpa using Nat.le_total) t.references).imp (by simp)
  exact ((List.mergeSort_perm _ _).trans h).eq_of_pairwise (fun a b _ _ => Nat.le_antisymm)
    hsorted List.pairwise_le_range

/-- The root concatenates something with the end marker, which has the last position. -/
def endsWithMarker (t : ParseTree) : Bool :=
  match t.nodes[t.root]? with
  | some (.concat _ r) => t.nodes[r]? = some (.endMarker t.endPosition)
  | _ => false

/-- Is the list of nodes a tree with its positions in order? -/
def check (t : ParseTree) : Except Fault Unit :=
  match checkNodes 0 1 t.nodes with
  | .error fault => .error fault
  | .ok next =>
    if !t.isTree then .error .notATree
    else if next ≠ t.endPosition + 1 then .error .positionsOutOfStep
    else if !t.endsWithMarker then .error .endMarkerMissing
    else .ok ()

end ParseTree

end PatternAutomata
