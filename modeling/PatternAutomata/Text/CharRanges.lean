/-!
# Pattern automata — tables of characters

A Unicode property is a table of code point ranges in increasing order;
`inRanges` looks a number up in one.
-/

namespace PatternAutomata.Text

/-- Is `n` in one of the ranges? They are in increasing order and hold both their ends. -/
def inRanges (n : Nat) : List (Nat × Nat) → Bool
  | [] => false
  | (low, high) :: rest => if n < low then false else if n ≤ high then true else inRanges n rest

/-- A number is only found in a range that holds it. -/
theorem exists_of_inRanges {n : Nat} {ranges : List (Nat × Nat)} (h : inRanges n ranges = true) :
    ∃ r ∈ ranges, r.1 ≤ n ∧ n ≤ r.2 := by
  induction ranges with
  | nil => cases h
  | cons r rest ih =>
    obtain ⟨low, high⟩ := r
    unfold inRanges at h
    split at h
    · cases h
    · split at h
      · exact ⟨(low, high), List.mem_cons_self, by omega, by omega⟩
      · obtain ⟨r, hr, hn⟩ := ih h
        exact ⟨r, List.mem_cons_of_mem _ hr, hn⟩

end PatternAutomata.Text
