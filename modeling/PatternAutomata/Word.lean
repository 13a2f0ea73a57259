import PatternAutomata.Fault

/-!
# Pattern automata — words

Numbers that come from outside fit in words of 64 bits. States are counted from
0 and never get near the bound, but a tie may be recorded between any two
numbers, and to raise those can lead out of the range.

## Results

* `addWords_eq_ok_iff` — a sum is answered exactly if it fits.
-/

namespace PatternAutomata

/-- The largest number that fits in a word. -/
def maxWord : Nat := 0xffffffffffffffff

/-- The sum of two words, if it is one. -/
def addWords (a b : Nat) : Except Fault Nat :=
  if a + b ≤ maxWord then .ok (a + b) else .error .sumTooLarge

theorem addWords_eq_ok_iff {a b c : Nat} :
    addWords a b = .ok c ↔ a + b = c ∧ a + b ≤ maxWord := by
  unfold addWords
  split
  · rename_i h
    exact ⟨fun hc => ⟨Except.ok.inj hc, h⟩, fun hc => congrArg _ hc.1⟩
  · rename_i h
    exact ⟨fun hc => (nomatch hc), fun hc => absurd hc.2 h⟩

end PatternAutomata
