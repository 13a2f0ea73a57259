import PatternAutomata.ParseTree
import PatternAutomata.SortedSet

/-!
# Pattern automata — positions

Which positions of a tree a word can begin with, which it can end with, and
which can come right after which. The first two are computed by a pass over the
nodes each; both passes find out on their own whether a node can stand for the
empty word. Positions after one another are only known where nothing is
interleaved, since two operands that run side by side have no single next
position.
-/

namespace PatternAutomata

/-- The two ends of a word. -/
inductive End where
  | front
  | back
  deriving DecidableEq, Repr

/-- What a pass from one end finds out about a node: whether it can stand for the empty
word, and the positions that can be at that end. Which end it is stands nowhere: both
passes keep the same kind of table. -/
structure EndInfo where
  nullable : Bool
  positions : SortedSet Nat
  deriving DecidableEq

namespace EndInfo

/-- A table of what is known about the nodes so far. -/
def lookup (table : Array EndInfo) (id : Nat) : Except Fault EndInfo :=
  (table[id]?).elim (.error .outOfRange) .ok

/-- A single position. -/
def position (p : Nat) : EndInfo where
  nullable := false
  positions := .singleton p

/-- Either of two. -/
def union (l r : EndInfo) : EndInfo where
  nullable := l.nullable || r.nullable
  positions := l.positions ∪ r.positions

/-- Both at once, in any order. -/
def shuffle (l r : EndInfo) : EndInfo where
  nullable := l.nullable && r.nullable
  positions := l.positions ∪ r.positions

/-- Both in turn, `near` being the one at the end that the pass looks from: the other one can
only be at that end if `near` can be empty. -/
def concat (near far : EndInfo) : EndInfo :=
  if near.nullable then
    { nullable := far.nullable, positions := near.positions ∪ far.positions }
  else { nullable := false, positions := near.positions }

/-- Any number of times. -/
def star (e : EndInfo) : EndInfo where
  nullable := true
  positions := e.positions

/-- What is known about a node, given what is known about the nodes before it. -/
def ofNode (side : End) (table : Array EndInfo) : Node → Except Fault EndInfo
  | .epsilon => .ok { nullable := true, positions := ∅ }
  | .char _ p | .endMarker p => .ok (position p)
  | .union l r => do return union (← lookup table l) (← lookup table r)
  | .shuffle l r => do return shuffle (← lookup table l) (← lookup table r)
  | .concat l r => do
    let left ← lookup table l
    let right ← lookup table r
    match side with
    | .front => return concat left right
    | .back => return concat right left
  | .star e => do return star (← lookup table e)

/-- One pass over the nodes. -/
def pass (side : End) (nodes : List Node) : Except Fault (Array EndInfo) :=
  nodes.foldlM (fun table node => do return table.push (← ofNode side table node)) #[]

end EndInfo

/-- What the two passes found out about the nodes of a tree, each in a table of its own
that has one entry for each node. -/
structure Annotations where
  front : Array EndInfo
  back : Array EndInfo
  deriving DecidableEq

namespace Annotations

/-- The answers of a pass to whether each node can stand for the empty word. -/
def nullables (table : Array EndInfo) : List Bool :=
  table.toList.map (·.nullable)

/-- Both passes, unless they differ on what can stand for the empty word. That they never do is
proved with the passes themselves; here it is looked at, as everything that is computed from the
two of them afterwards takes it for granted. -/
def ofTree (t : ParseTree) : Except Fault Annotations := do
  let front ← EndInfo.pass .front t.nodes
  let back ← EndInfo.pass .back t.nodes
  if nullables front = nullables back then return { front := front, back := back }
  else throw (.nullabilityDiffers (nullables front) (nullables back))

/-- The positions that a word of the node can begin with. -/
def first (a : Annotations) (id : Nat) : Except Fault (SortedSet Nat) := do
  return (← EndInfo.lookup a.front id).positions

/-- The positions that a word of the node can end with. -/
def last (a : Annotations) (id : Nat) : Except Fault (SortedSet Nat) := do
  return (← EndInfo.lookup a.back id).positions

/-- Can the node stand for the empty word? -/
def nullable (a : Annotations) (id : Nat) : Except Fault Bool := do
  return (← EndInfo.lookup a.front id).nullable

/-- The same, as found out from the back. -/
def nullableLast (a : Annotations) (id : Nat) : Except Fault Bool := do
  return (← EndInfo.lookup a.back id).nullable

end Annotations

-- ---------------------------------------------------------------------------
-- Positions after one another
-- ---------------------------------------------------------------------------

/-- Each of `sources` can have any of `targets` right after it. -/
structure Link where
  sources : SortedSet Nat
  targets : SortedSet Nat
  deriving DecidableEq

/-- The link that the node at place `id` makes: between the two parts of a concatenation, or
between two rounds of a repetition. -/
def Annotations.link? (a : Annotations) : Node × Nat → Except Fault (Option Link)
  | (.concat l r, _) => do return some { sources := ← a.last l, targets := ← a.first r }
  | (.star _, id) => do return some { sources := ← a.last id, targets := ← a.first id }
  | (.shuffle _ _, _) => .error .followAcrossInterleave
  | (.char _ _, _) | (.epsilon, _) | (.endMarker _, _) | (.union _ _, _) => .ok none

/-- For each position `1, 2, …` the positions that can come right after it. -/
structure FollowTable where
  sets : Array (SortedSet Nat)
  deriving DecidableEq

namespace FollowTable

/-- The positions that can come right after `p`, refused if there is no such position. -/
def get (f : FollowTable) (p : Nat) : Except Fault (SortedSet Nat) :=
  match p with
  | 0 => .error .outOfRange
  | i + 1 => (f.sets[i]?).elim (.error .outOfRange) .ok

/-- Puts one more set after position `p`. -/
def extend (targets : SortedSet Nat) (after : Array (List (SortedSet Nat))) (p : Nat) :
    Except Fault (Array (List (SortedSet Nat))) :=
  match p with
  | 0 => .error .outOfRange
  | i + 1 =>
    if i < after.size then .ok (after.modify i (targets :: ·)) else .error .outOfRange

/-- Puts the targets of a link after its sources. -/
def addLink (after : Array (List (SortedSet Nat))) (l : Link) :
    Except Fault (Array (List (SortedSet Nat))) :=
  l.sources.toList.foldlM (extend l.targets) after

/-- The table of `count` positions that are next to each other by these links only. -/
def ofLinks (count : Nat) (links : List Link) : Except Fault FollowTable := do
  let after ← links.foldlM addLink (Array.replicate count [])
  return { sets := after.map .unions }

/-- The table of a tree: the links that its nodes make, in the order of the nodes. A tree
that interleaves has none. -/
def ofTree (t : ParseTree) (a : Annotations) : Except Fault FollowTable := do
  ofLinks t.endPosition (← t.nodes.zipIdx.filterMapM a.link?)

def length (f : FollowTable) : Nat := f.sets.size

def isEmpty (f : FollowTable) : Bool := f.sets.isEmpty

end FollowTable

/-- The text of a set of positions, as in `{1,2,3}`. -/
def positionsLabel (set : SortedSet Nat) : String :=
  "\x7b" ++ ",".intercalate (set.toList.map toString) ++ "\x7d"

end PatternAutomata
