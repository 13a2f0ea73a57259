import PatternAutomata.Automaton.Subset
import PatternAutomata.Positions
import PatternAutomata.Thompson

/-!
# Pattern automata — the direct construction

A deterministic automaton made of the positions of a tree: a state is the set of
positions that can come next, and it is final iff the end marker is among them.
A tree with interleavings has no such automaton, so its Thompson automaton is
determinized instead.
-/

namespace PatternAutomata

namespace FollowTable

/-- The positions after `p`, none if there is no such position. -/
def nexts (f : FollowTable) (p : Nat) : SortedSet Nat :=
  f.sets.getD (p - 1) ∅

/-- All positions that come after some position. -/
def allNexts (f : FollowTable) : List Nat :=
  f.sets.toList.flatMap (·.toList)

/-- What comes after one position comes after some. -/
theorem mem_allNexts {f : FollowTable} {p q : Nat} (h : q ∈ f.nexts p) : q ∈ f.allNexts := by
  rcases Rows.getD_mem_or_eq f.sets (p - 1) ∅ with hset | hset
  · exact List.mem_flatMap.mpr ⟨_, hset, h⟩
  · rw [nexts, hset] at h
    exact absurd h SortedSet.not_mem_empty

/-- The positions after those members of `set` that read `c`. -/
def nextsOn (f : FollowTable) (t : ParseTree) (set : SortedSet Nat) (c : Char) :
    SortedSet Nat :=
  .unions ((set.toList.filter fun p => t.positions[p - 1]? = some (.char c)).map f.nexts)

/-- The sets that the literals of the tree lead to, the empty one left out. -/
def moves (f : FollowTable) (t : ParseTree) (set : SortedSet Nat) :
    List (Char × SortedSet Nat) :=
  (t.symbols.map fun c => (c, f.nextsOn t set c)).filter (!·.2.isEmpty)

/-- The sets that one literal leads to, for the search. -/
def nextSets (f : FollowTable) (t : ParseTree) (set : SortedSet Nat) : List (SortedSet Nat) :=
  (f.moves t set).map (·.2)

/-- All sets that are reached are over the positions that come after some position, so the
search for them ends. -/
theorem finiteRange_nextSets (f : FollowTable) (t : ParseTree) : FiniteRange (f.nextSets t) := by
  obtain ⟨sets, hsets⟩ := exists_range_of_subset f.allNexts
  refine ⟨sets, fun set next hnext => hsets next fun q hq => ?_⟩
  obtain ⟨⟨c, next'⟩, hmove, rfl⟩ := List.mem_map.mp hnext
  obtain ⟨c', _, hc'⟩ := List.mem_map.mp (List.mem_filter.mp hmove).1
  cases hc'
  obtain ⟨u, hu, hqu⟩ := SortedSet.mem_unions.mp hq
  obtain ⟨p, _, rfl⟩ := List.mem_map.mp hu
  exact mem_allNexts hqu

/-- The sets of positions that some word leads to, `start` first. -/
def reachedSets (f : FollowTable) (t : ParseTree) (start : SortedSet Nat) :
    List (SortedSet Nat) :=
  explore (f.nextSets t) (f.finiteRange_nextSets t) [start]

/-- The sets of positions that some word leads to, and where the literals lead from each. -/
def setVisits (f : FollowTable) (t : ParseTree) (start : SortedSet Nat) :
    List (SortedSet Nat × List (Char × SortedSet Nat)) :=
  exploreSteps (f.moves t) (List.map Prod.snd) (f.finiteRange_nextSets t) [start]

/-- The transitions of a state are the moves of its set. -/
theorem setVisits_eq (f : FollowTable) (t : ParseTree) (start : SortedSet Nat) :
    f.setVisits t start = (f.reachedSets t start).map fun set => (set, f.moves t set) :=
  exploreSteps_eq

/-- Does the table have an entry for every member of the set? -/
def covers (f : FollowTable) (set : SortedSet Nat) : Bool :=
  set.toList.all fun p => 1 ≤ p && p ≤ f.length

/-- The visits of `setVisits`, refused if one of the sets holds a position without an entry. -/
def checkedVisits (f : FollowTable) (t : ParseTree) (start : SortedSet Nat) :
    Except Fault (List (SortedSet Nat × List (Char × SortedSet Nat))) :=
  let visits := f.setVisits t start
  if visits.all fun visit => f.covers visit.1 then .ok visits else .error .outOfRange

end FollowTable

namespace ParseTree

/-- Do all positions of the set exist? -/
def hasPositions (t : ParseTree) (set : SortedSet Nat) : Bool :=
  set.toList.all fun p => 1 ≤ p && p ≤ t.endPosition

/-- A set of positions is labelled by its members, and final iff it holds the end marker's. -/
def positionsNaming (t : ParseTree) : StateNaming (SortedSet Nat) where
  label set := if t.hasPositions set then .ok (positionsLabel set) else .error .outOfRange
  isFinal set := t.endPosition ∈ set

/-- The automaton of the sets of positions. -/
def positionAutomaton (t : ParseTree) : Except Fault Dfa := do
  let annotations ← Annotations.ofTree t
  let follow ← FollowTable.ofTree t annotations
  let start ← annotations.first t.root
  Dfa.ofElements (.ofList t.symbols) t.positionsNaming (← follow.checkedVisits t start)

/-- The direct automaton of a tree, and the log of its construction. -/
def directLogged (t : ParseTree) : Except Fault (Dfa × List Event) :=
  if t.hasShuffle then do
    let (n, events) ← t.thompsonLogged
    let d ← Dfa.ofNfa n
    return (d, .interleavingFound t.pattern :: events ++ Dfa.ofNfaEvents n d)
  else do
    let d ← t.positionAutomaton
    return (d, [.directBuilt t.pattern t.endPosition d.stateCount])

/-- The direct automaton of a tree. -/
def direct (t : ParseTree) : Except Fault Dfa := do
  return (← t.directLogged).1

end ParseTree

end PatternAutomata
