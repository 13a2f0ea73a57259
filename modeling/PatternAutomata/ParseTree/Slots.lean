/-!
# Pattern automata — results on the way up

A pass over a parse tree keeps one slot per node for what was computed from it.
The parent takes the results of its children, so that each is used once.
-/

namespace PatternAutomata

/-- The results of the nodes visited so far; a slot is empty once its result was taken. -/
abbrev Slots (β : Type) := Array (Option β)

namespace Slots

variable {β : Type}

/-- Takes the result at place `i`, if it is there, and leaves its slot empty. -/
def take (slots : Slots β) (i : Nat) : Option β × Slots β :=
  (slots[i]?.join, slots.setIfInBounds i none)

/-- The next node's result. -/
def push (slots : Slots β) (value : β) : Slots β :=
  Array.push slots (some value)

end Slots

end PatternAutomata
