import PatternAutomata.Dialect

/-!
# Pattern automata — faults

Operations on automata refuse what makes no sense, such as a state that does
not exist. A fault names its cause; the wording is in one place.
-/

namespace PatternAutomata

/-- Why an operation was refused. -/
inductive Fault where
  /-- There is no such state, node or position. -/
  | outOfRange
  | unknownStart (state : Nat)
  | unknownFinal (state : Nat)
  | unknownTarget (state : Nat)
  /-- Two automata to be merged have a state of the same label. -/
  | labelInUse (label : String)
  /-- A number was raised beyond the largest word. -/
  | sumTooLarge
  | fragmentWithoutStart
  | interleaveWithoutStart
  /-- The two passes over a tree differ on which nodes can stand for the empty word. -/
  | nullabilityDiffers (front back : List Bool)
  | lostChild (parent child : Nat)
  | followAcrossInterleave
  /-- A token was left over that the grammar should have read. -/
  | leftover (token : Token)
  | childNotBefore (node child : Nat)
  | misplaced (node position expected : Nat)
  | notATree
  | positionsOutOfStep
  | endMarkerMissing
  deriving DecidableEq, Repr

namespace Fault

/-- The wording of a fault; an index out of range has none. -/
def message? : Fault → Option String
  | outOfRange => none
  | unknownStart s => some s!"Unknown start state {s}."
  | unknownFinal s => some s!"Unknown final state {s}."
  | unknownTarget s => some s!"Unknown target state {s}."
  | labelInUse label => some s!"State label \"{label}\" is used twice, this is a bug !"
  | sumTooLarge => some "attempt to add with overflow"
  | fragmentWithoutStart => some "Fragment without a start state, this is a bug !"
  | interleaveWithoutStart =>
    some "Interleaving a fragment without a start state, this is a bug !"
  | nullabilityDiffers front back =>
    some s!"assertion `left == right` failed\n  left: {front}\n right: {back}"
  | lostChild parent child => some s!"Node {parent} lost its child {child}, this is a bug !"
  | followAcrossInterleave => some "FOLLOW sets are undefined for interleaved expressions."
  | leftover _ => some "A token was left unconsumed, this is a bug !"
  | childNotBefore node child => some s!"Node {node} points forward to {child}, this is a bug !"
  | misplaced node position expected =>
    some s!"Node {node} has position {position} instead of {expected}, this is a bug !"
  | notATree => some "The parse tree is not a tree, this is a bug !"
  | positionsOutOfStep => some "Position table out of sync, this is a bug !"
  | endMarkerMissing =>
    some "The parse tree does not end with the end marker, this is a bug !"

end Fault

end PatternAutomata
