import PatternAutomata.SortedSet

/-!
# Pattern automata — sorted maps

The outgoing transitions of a state form a finite map from symbols to targets
that is listed in the order of its keys. Like a sorted set, a sorted map has
one representation: its entries, strictly increasing in the rank of the key.

## Results

* `find?_insert`, `find?_erase`, `find?_mapValues` — what each operation does to a lookup.
* `find?_eq_some_iff` — a lookup answers exactly the entries.
* `SortedMap.ext`     — two maps with the same lookups are equal.
-/

namespace PatternAutomata

/-- A finite map, held as its entries in strictly increasing order of the keys. No key is
bound twice, as the order is strict. -/
structure SortedMap (κ : Type) [Ranked κ] (ν : Type) where
  entries : List (κ × ν) := []
  sorted : entries.Pairwise (fun x y => Ranked.rank x.1 < Ranked.rank y.1) := by simp

namespace SortedMap

open Ranked

variable {κ ν μ : Type} [Ranked κ]

-- ---------------------------------------------------------------------------
-- Entries in order
-- ---------------------------------------------------------------------------

/-- Binds `k` to `v` in entries sorted by key, in place of an earlier binding of `k`. -/
def insertList (k : κ) (v : ν) : List (κ × ν) → List (κ × ν)
  | [] => [(k, v)]
  | (j, w) :: rest =>
    if rank k < rank j then (k, v) :: (j, w) :: rest
    else if rank j < rank k then (j, w) :: insertList k v rest
    else (k, v) :: rest

/-- An entry of the new list is the one that was bound, or one of the old. -/
theorem mem_keys_insertList {k : κ} {v : ν} {l : List (κ × ν)} {e : κ × ν}
    (h : e ∈ insertList k v l) : e = (k, v) ∨ e ∈ l := by
  induction l with
  | nil => simpa [insertList] using h
  | cons b rest ih =>
    obtain ⟨j, w⟩ := b
    unfold insertList at h
    split at h
    · simpa using h
    · split at h
      · rcases List.mem_cons.mp h with rfl | h
        · exact Or.inr List.mem_cons_self
        · exact (ih h).imp id (List.mem_cons_of_mem _)
      · rcases List.mem_cons.mp h with rfl | h
        · exact Or.inl rfl
        · exact Or.inr (List.mem_cons_of_mem _ h)

/-- Binding a key keeps the entries in order: it goes to its place, or replaces the entry
there. -/
theorem sorted_insertList {k : κ} {v : ν} {l : List (κ × ν)}
    (h : l.Pairwise (fun x y => rank x.1 < rank y.1)) :
    (insertList k v l).Pairwise (fun x y => rank x.1 < rank y.1) := by
  induction l with
  | nil => simp [insertList]
  | cons b rest ih =>
    obtain ⟨j, w⟩ := b
    obtain ⟨hb, hrest⟩ := List.pairwise_cons.mp h
    unfold insertList
    split
    · rename_i hkj
      refine List.pairwise_cons.mpr ⟨fun e he => ?_, h⟩
      rcases List.mem_cons.mp he with rfl | he
      · exact hkj
      · exact Nat.lt_trans hkj (hb e he)
    · split
      · rename_i hjk
        refine List.pairwise_cons.mpr ⟨fun e he => ?_, ih hrest⟩
        rcases mem_keys_insertList he with rfl | he
        · exact hjk
        · exact hb e he
      · rename_i hkj hjk
        obtain rfl := SortedSet.eq_of_rank_not_lt hkj hjk
        exact List.pairwise_cons.mpr ⟨hb, hrest⟩

-- ---------------------------------------------------------------------------
-- Operations
-- ---------------------------------------------------------------------------

instance : EmptyCollection (SortedMap κ ν) where
  emptyCollection := {}

instance : Inhabited (SortedMap κ ν) := ⟨∅⟩

instance [DecidableEq κ] [DecidableEq ν] : DecidableEq (SortedMap κ ν) := fun s t =>
  decidable_of_iff (s.entries = t.entries)
    ⟨fun h => by cases s; cases t; cases h; rfl, fun h => h ▸ rfl⟩

/-- What `k` is bound to. -/
def find? [DecidableEq κ] (m : SortedMap κ ν) (k : κ) : Option ν :=
  (m.entries.find? (·.1 = k)).map (·.2)

/-- The map with `k` bound to `v`, whatever `k` was bound to before. -/
def insert (m : SortedMap κ ν) (k : κ) (v : ν) : SortedMap κ ν where
  entries := insertList k v m.entries
  sorted := sorted_insertList m.sorted

def erase [DecidableEq κ] (m : SortedMap κ ν) (k : κ) : SortedMap κ ν where
  entries := m.entries.filter (·.1 ≠ k)
  sorted := m.sorted.filter _

/-- The map with `f` applied to every value. The keys stay, and with them the order. -/
def mapValues (f : ν → μ) (m : SortedMap κ ν) : SortedMap κ μ where
  entries := m.entries.map fun e => (e.1, f e.2)
  sorted := List.pairwise_map.mpr m.sorted

-- ---------------------------------------------------------------------------
-- Lookups
-- ---------------------------------------------------------------------------

variable [DecidableEq κ]

/-- A lookup answers exactly the entries. -/
theorem find?_eq_some_iff {m : SortedMap κ ν} {k : κ} {v : ν} :
    m.find? k = some v ↔ (k, v) ∈ m.entries := by
  obtain ⟨entries, hs⟩ := m
  simp only [find?]
  induction entries with
  | nil => simp
  | cons b rest ih =>
    obtain ⟨j, w⟩ := b
    obtain ⟨hb, hrest⟩ := List.pairwise_cons.mp hs
    by_cases hj : j = k
    · subst hj
      -- behind an entry only larger keys follow, so none with the key of the head
      have hj : ∀ v, ¬ (j, v) ∈ rest := fun v hv => Nat.lt_irrefl (rank j) (hb (j, v) hv)
      simp only [List.find?_cons, decide_true, Option.map_some, Option.some.injEq,
        List.mem_cons, Prod.mk.injEq, true_and, hj v, or_false]
      exact eq_comm
    · simp only [List.find?_cons, hj, decide_false, ih hrest, List.mem_cons, Prod.mk.injEq]
      exact ⟨Or.inr, fun h => h.elim (fun h => absurd h.1.symm hj) id⟩

@[simp] theorem find?_empty {k : κ} : (∅ : SortedMap κ ν).find? k = none := rfl

/-- A key that was just bound is found with its value, and all other keys are found as
before. -/
theorem find?_insert {m : SortedMap κ ν} {k j : κ} {v : ν} :
    (m.insert k v).find? j = if j = k then some v else m.find? j := by
  -- for lists in general, as the induction leaves the sorted maps behind
  have key : ∀ l : List (κ × ν), (l.Pairwise fun x y => rank x.1 < rank y.1) →
      ((insertList k v l).find? (·.1 = j)).map (·.2) =
        if j = k then some v else (l.find? (·.1 = j)).map (·.2) := by
    intro l hl
    induction l with
    | nil =>
      by_cases hjk : j = k
      · simp [insertList, hjk]
      · simp [insertList, hjk, Ne.symm hjk]
    | cons b rest ih =>
      obtain ⟨i, w⟩ := b
      obtain ⟨hb, hrest⟩ := List.pairwise_cons.mp hl
      unfold insertList
      split
      · by_cases hjk : j = k
        · simp [hjk]
        · simp [hjk, Ne.symm hjk, List.find?_cons]
      · split
        · rename_i hki hik
          by_cases hij : i = j
          · have : ¬ j = k := by rintro rfl; subst hij; exact Nat.lt_irrefl _ hik
            simp [hij, this]
          · simp only [List.find?_cons, hij, decide_false, ih hrest]
        · rename_i hki hik
          obtain rfl := SortedSet.eq_of_rank_not_lt hki hik
          by_cases hjk : j = k
          · simp [hjk]
          · simp [hjk, Ne.symm hjk]
  exact key m.entries m.sorted

/-- An erased key is not found, and all other keys are found as before. -/
theorem find?_erase {m : SortedMap κ ν} {k j : κ} :
    (m.erase k).find? j = if j = k then none else m.find? j := by
  refine Option.ext fun v => ?_
  rw [find?_eq_some_iff]
  show (j, v) ∈ m.entries.filter _ ↔ _
  by_cases hjk : j = k
  · simp [hjk]
  · simp [hjk, find?_eq_some_iff]

/-- A lookup in the mapped map is the mapped lookup. -/
theorem find?_mapValues {m : SortedMap κ ν} {f : ν → μ} {k : κ} :
    (m.mapValues f).find? k = (m.find? k).map f := by
  show ((m.entries.map fun e => (e.1, f e.2)).find? (·.1 = k)).map (·.2) = _
  unfold find?
  induction m.entries with
  | nil => rfl
  | cons b rest ih =>
    by_cases hb : b.1 = k
    · simp [hb]
    · simpa [List.find?_cons, hb] using ih

/-- Two maps with the same lookups are equal: the entries are what the lookups answer, and
an increasing list is determined by its members. -/
theorem ext {m n : SortedMap κ ν} (h : ∀ k, m.find? k = n.find? k) : m = n := by
  have hl : m.entries = n.entries :=
    SortedSet.increasing_ext (f := fun e => rank e.1) m.sorted n.sorted fun e => by
      rw [← find?_eq_some_iff, ← find?_eq_some_iff, h]
  cases m
  cases n
  cases hl
  rfl

end SortedMap

end PatternAutomata
