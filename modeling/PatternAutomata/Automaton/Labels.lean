import Std.Data.ExtTreeMap

/-!
# Pattern automata — labels

The labels of an automaton's states tell the states apart. They are numbered in
the order in which they were added, and can be looked up in both directions: by
their number in an array, by their text in an index. The index adds nothing to
what the array says, so two lists of labels with the same array are equal.

## Results

* `find?_eq_some_iff` — the two directions are inverse to each other.
* `find?_eq_none_iff` — a label is not found only if it is not there.
* `get?_push`, `get?_append` — where labels that are added go.
* `Labels.ext`        — the labels in their order are all that there is.
* `toList_push`, `toList_append`, `find?_eq_none_iff_not_mem` — the same on the list of labels.
-/

namespace PatternAutomata

/-- A list of labels without repetition. That the index agrees with the array is part of
the data, so no operation can break it, and no proof about automata ever looks at the
index. -/
structure Labels where
  index : Std.ExtTreeMap String Nat := ∅
  names : Array String := #[]
  index_eq_some_iff : ∀ (name : String) (s : Nat),
    index[name]? = some s ↔ names[s]? = some name := by simp

namespace Labels

instance : EmptyCollection Labels := ⟨{}⟩

/-- How many labels there are, which is also the number of the next one. -/
def size (l : Labels) : Nat := l.names.size

/-- The label of number `s`. -/
def get? (l : Labels) (s : Nat) : Option String := l.names[s]?

/-- The number of a label. -/
def find? (l : Labels) (name : String) : Option Nat := l.index[name]?

/-- The two directions are inverse to each other. -/
theorem find?_eq_some_iff {l : Labels} {name : String} {s : Nat} :
    l.find? name = some s ↔ l.get? s = some name := l.index_eq_some_iff name s

/-- A label is not found only if it is not there. -/
theorem find?_eq_none_iff {l : Labels} {name : String} :
    l.find? name = none ↔ ∀ s, l.get? s ≠ some name := by
  rw [Option.eq_none_iff_forall_ne_some]
  exact forall_congr' fun s => not_congr find?_eq_some_iff

/-- Adds a label that is not in use. -/
def push (l : Labels) (name : String) (h : l.find? name = none) : Labels where
  index := l.index.insert name l.names.size
  names := l.names.push name
  index_eq_some_iff other s := by
    have hget : l.names[s]? ≠ some name := find?_eq_none_iff.mp h s
    rw [Std.ExtTreeMap.getElem?_insert, Array.getElem?_push]
    simp only [Std.LawfulEqCmp.compare_eq_iff_eq]
    -- only the new label is found at the new place
    by_cases hname : name = other
    · subst hname
      by_cases hs : s = l.names.size
      · simp [hs]
      · simpa [hs, Ne.symm hs] using hget
    · by_cases hs : s = l.names.size
      · simp [hs, hname, l.index_eq_some_iff]
      · simp [hs, hname, l.index_eq_some_iff]

/-- The first label of `m` that is in use in `l`. -/
def firstShared? (l m : Labels) : Option String :=
  m.names.find? fun name => (l.find? name).isSome

theorem find?_eq_none_of_firstShared? {l m : Labels} (h : l.firstShared? m = none) {s : Nat}
    {name : String} (hname : m.get? s = some name) : l.find? name = none := by
  simpa using Array.find?_eq_none.mp h name (Array.mem_of_getElem? hname)

/-- Adds labels none of which is in use. -/
def append (l m : Labels) (h : l.firstShared? m = none) : Labels where
  index := l.index ∪ m.index.map fun _ s => s + l.names.size
  names := l.names ++ m.names
  index_eq_some_iff name s := by
    have hshared : ∀ t, m.get? t = some name → ∀ s, l.get? s ≠ some name := fun t ht =>
      find?_eq_none_iff.mp (find?_eq_none_of_firstShared? h ht)
    rw [Std.ExtTreeMap.getElem?_union, Std.ExtTreeMap.getElem?_map, Array.getElem?_append]
    -- a name is found in `m`, and then raised, or it is found in `l`
    cases hm : m.index[name]? with
    | none =>
      have hnot : ∀ t, m.names[t]? ≠ some name := find?_eq_none_iff.mp hm
      simp only [Option.map_none, Option.none_or, l.index_eq_some_iff]
      split
      · rfl
      · rename_i hs
        simp [Array.getElem?_eq_none (Nat.le_of_not_lt hs), hnot]
    | some t =>
      have ht := (m.index_eq_some_iff name t).mp hm
      have hnot : ∀ s, l.names[s]? ≠ some name := hshared t ht
      simp only [Option.map_some, Option.some_or, Option.some.injEq]
      split
      · simp only [hnot, iff_false]
        omega
      · rw [← m.index_eq_some_iff, hm, Option.some.injEq]
        omega

/-- The labels in their order are all that there is: the index says nothing that they do
not say. -/
theorem ext {l m : Labels} (h : l.names = m.names) : l = m := by
  obtain ⟨index, names, hindex⟩ := l
  obtain ⟨index', names', hindex'⟩ := m
  subst h
  -- both indices answer what the one array says
  have : index = index' := Std.ExtTreeMap.ext_getElem? fun name => Option.ext fun s =>
    (hindex name s).trans (hindex' name s).symm
  subst this
  rfl

instance : DecidableEq Labels := fun l m =>
  decidable_of_iff (l.names = m.names) ⟨ext, fun h => h ▸ rfl⟩

def toList (l : Labels) : List String := l.names.toList

/-- No label is there twice. -/
theorem nodup_toList (l : Labels) : l.toList.Nodup := by
  refine List.pairwise_iff_getElem.mpr fun i j hi hj hij h => ?_
  -- a label finds its own number, so two places with the same label are one
  have hname : ∀ s (hs : s < l.toList.length), l.find? l.toList[s] = some s := fun s hs =>
    find?_eq_some_iff.mpr (by simp [get?, toList])
  have := (hname i hi).symm.trans ((congrArg l.find? h).trans (hname j hj))
  exact Nat.ne_of_lt hij (Option.some.inj this)

-- ---------------------------------------------------------------------------
-- Labels as a list
-- ---------------------------------------------------------------------------

@[simp] theorem toList_empty : (∅ : Labels).toList = [] := rfl

@[simp] theorem length_toList (l : Labels) : l.toList.length = l.size := Array.length_toList

@[simp] theorem toList_push {l : Labels} {name : String} {h : l.find? name = none} :
    (l.push name h).toList = l.toList ++ [name] := Array.toList_push ..

@[simp] theorem toList_append {l m : Labels} {h : l.firstShared? m = none} :
    (l.append m h).toList = l.toList ++ m.toList := Array.toList_append ..

/-- The place in the list is the number. -/
theorem getElem?_toList {l : Labels} {s : Nat} : l.toList[s]? = l.get? s :=
  Array.getElem?_toList ..

/-- A label is in use if it is in the list. -/
theorem find?_eq_none_iff_not_mem {l : Labels} {name : String} :
    l.find? name = none ↔ name ∉ l.toList := by
  simp only [find?_eq_none_iff, ← getElem?_toList, List.mem_iff_getElem?, not_exists, ne_eq]

/-- Two lists of labels can be put together if they have none in common. -/
theorem firstShared?_eq_none_iff {l m : Labels} :
    l.firstShared? m = none ↔ ∀ name ∈ m.toList, name ∉ l.toList := by
  rw [firstShared?, Array.find?_eq_none]
  refine forall_congr' fun name => ?_
  rw [← find?_eq_none_iff_not_mem, Option.not_isSome_iff_eq_none, toList, Array.mem_toList_iff]

end Labels

end PatternAutomata
