import PatternAutomata.Fault

/-!
# Pattern automata — rows

Transitions are kept in an array with a row for every state, and next positions in
one with a row for every position. A construction looks its rows up and refuses what
has none. What is said about a construction is said of arrays in which there is an
empty row behind the last one, so that it needs no bounds. Both are the same wherever
there is a row.

## Results

* `Rows.lookup_eq_ok`, `Rows.lookup_eq_error` — a lookup answers the row, if there is one.
* `Rows.getD_mem_or_eq` — what is read is a row of the array, or the empty row.
* `Rows.getD_push_empty`, `Rows.getD_push_of_lt`, `Rows.getD_setIfInBounds` — rows that are
  put behind the others, or in the place of one.
-/

namespace PatternAutomata

namespace Rows

variable {α : Type} {rows : Array α} {row empty : α} {i j : Nat}

-- ---------------------------------------------------------------------------
-- Reading
-- ---------------------------------------------------------------------------

/-- Behind the last row an empty one is read. -/
theorem getD_of_size_le (h : rows.size ≤ i) : rows.getD i empty = empty := by
  rw [Array.getD_eq_getD_getElem?, Array.getElem?_eq_none h, Option.getD_none]

/-- What is read is a row of the array, or the empty row. So what holds of the empty row and of
all rows that there are holds of what is read, whether the place exists or not. -/
theorem getD_mem_or_eq (rows : Array α) (i : Nat) (empty : α) :
    rows.getD i empty ∈ rows.toList ∨ rows.getD i empty = empty := by
  by_cases hi : i < rows.size
  · rw [← Array.getElem_eq_getD (h := hi)]
    exact .inl (Array.getElem_mem_toList hi)
  · exact .inr (getD_of_size_le (Nat.le_of_not_lt hi))

/-- A row that is there is found by the lookup, and is the one that is read. -/
theorem lookup_eq_ok (hi : i < rows.size) (empty : α) :
    (rows[i]?).elim (.error .outOfRange) .ok = (.ok (rows.getD i empty) : Except Fault α) := by
  rw [Array.getElem?_eq_getElem hi, ← Array.getElem_eq_getD (h := hi)]
  rfl

/-- A lookup of a row that is not there is refused, though an empty row would be read. -/
theorem lookup_eq_error (hi : ¬ i < rows.size) :
    (rows[i]?).elim (.error .outOfRange) .ok = (.error .outOfRange : Except Fault α) := by
  rw [Array.getElem?_eq_none (Nat.le_of_not_lt hi)]
  rfl

-- ---------------------------------------------------------------------------
-- Changes
-- ---------------------------------------------------------------------------

/-- Nothing is read differently once an empty row is put behind the others: there, an empty row
was read before. -/
theorem getD_push_empty : (rows.push empty).getD i empty = rows.getD i empty := by
  rw [Array.getD_eq_getD_getElem?, Array.getD_eq_getD_getElem?, Array.getElem?_push]
  split
  · rename_i hi
    rw [hi, Array.getElem?_eq_none (Nat.le_refl _)]
    rfl
  · rfl

/-- Rows that are there stay as they are when another one is put behind them. -/
theorem getD_push_of_lt (hi : i < rows.size) :
    (rows.push row).getD i empty = rows.getD i empty := by
  rw [Array.getD_eq_getD_getElem?, Array.getD_eq_getD_getElem?, Array.getElem?_push_lt hi,
    Array.getElem?_eq_getElem hi]

/-- Storing a row changes the one at its place and no other row. -/
theorem getD_setIfInBounds (hi : i < rows.size) :
    (rows.setIfInBounds i row).getD j empty = if j = i then row else rows.getD j empty := by
  rw [Array.getD_eq_getD_getElem?, Array.getElem?_setIfInBounds]
  by_cases hj : j = i
  · simp [hj, hi]
  · rw [if_neg (Ne.symm hj), if_neg hj, Array.getD_eq_getD_getElem?]

end Rows

end PatternAutomata
