import PatternAutomata.ParseTree
import PatternAutomata.ParseTree.Slots

/-!
# Pattern automata — printed parse trees

A tree is printed with its operators in front, as in `.(*(|(a:1, b:2)), ⊣:3)`.
The text is put together along the list of nodes, each node taking the texts of
its children. `Expr.text` is the same text, written from the root down.
-/

namespace PatternAutomata

namespace Node

/-- The text of an operator's node over the texts of its two operands. -/
def binaryText (sign : String) (l r : Nat) (slots : Slots String) : String × Slots String :=
  let (left?, slots) := slots.take l
  let (right?, slots) := slots.take r
  (sign ++ "(" ++ left?.getD "" ++ ", " ++ right?.getD "" ++ ")", slots)

/-- The text of a node over the texts of its children. -/
def text (slots : Slots String) : Node → String × Slots String
  | char c p => ((Letter.char c).text ++ ":" ++ toString p, slots)
  | epsilon => ("ε", slots)
  | endMarker p => (Letter.endMarker.text ++ ":" ++ toString p, slots)
  | concat l r => binaryText "." l r slots
  | union l r => binaryText "|" l r slots
  | shuffle l r => binaryText "&" l r slots
  | star e =>
    let (body?, slots) := slots.take e
    ("*(" ++ body?.getD "" ++ ")", slots)

end Node

namespace ParseTree

/-- The texts that are left after all nodes were visited. -/
def texts (nodes : List Node) : Slots String :=
  nodes.foldl (fun slots node => let (s, rest) := node.text slots; rest.push s) #[]

/-- The tree with its operators in front: the text of the root. -/
def text (t : ParseTree) : String :=
  (texts t.nodes).back?.join.getD ""

end ParseTree

namespace Expr

/-- An operator in front of its two operands. -/
def operatorText (sign left right : String) : String :=
  sign ++ "(" ++ left ++ ", " ++ right ++ ")"

/-- An expression over numbered letters with its operators in front. -/
def text : Expr (Letter × Nat) → String
  | epsilon => "ε"
  | leaf (a, p) => a.text ++ ":" ++ toString p
  | concat l r => operatorText "." l.text r.text
  | union l r => operatorText "|" l.text r.text
  | shuffle l r => operatorText "&" l.text r.text
  | star e => "*(" ++ e.text ++ ")"

end Expr

end PatternAutomata
