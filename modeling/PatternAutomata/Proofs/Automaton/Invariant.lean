import PatternAutomata.Automaton.Dfa
import PatternAutomata.Proofs.Automaton.Paths

/-!
# Pattern automata — what always holds of an automaton

An automaton is held in several parts that change separately: the labels, the
rows, the start, the final states and the alphabet. `Valid` says how they fit
together: every state has a row, whatever refers to a state refers to one that
exists, and the alphabet has every letter of a transition.
-/

namespace PatternAutomata

/-- The start and the final states exist. Labels need no condition: that no two states
have the same one is part of how they are held. -/
structure StateTable.Valid (t : StateTable) : Prop where
  start_lt : ∀ s, t.start = some s → s < t.stateCount
  finals_lt : ∀ s ∈ t.finals, s < t.stateCount

/-- What always holds of a nondeterministic automaton. Every state has a row, edges lead
to states that exist, the alphabet has every letter that is read, and no symbol is kept in
a row without a target. Ties are left out: they may be between any numbers. -/
structure Nfa.Valid (n : Nfa) : Prop extends n.toStateTable.Valid where
  size_rows : n.rows.size = n.stateCount
  edge_lt : ∀ s a t, n.Edge s a t → t < n.stateCount
  edge_alphabet : ∀ s c t, n.Edge s (.char c) t → c ∈ n.alphabet
  targets_ne : ∀ s a, (n.rows.getD s ∅).find? a ≠ some ∅

/-- What always holds of a deterministic automaton: the same, with one successor on each
letter. -/
structure Dfa.Valid (d : Dfa) : Prop extends d.toStateTable.Valid where
  size_rows : d.rows.size = d.stateCount
  next_lt : ∀ s c t, d.nextOf (some s) c = some t → t < d.stateCount
  next_alphabet : ∀ s c t, d.nextOf (some s) c = some t → c ∈ d.alphabet

-- ---------------------------------------------------------------------------
-- Labels of states
-- ---------------------------------------------------------------------------

/-- Places in a list that has grown at its end: the old ones are as they were, and the
last one holds the new element. -/
theorem getElem?_concat_eq_some_iff {α : Type} {l : List α} {a b : α} {i : Nat} :
    (l ++ [a])[i]? = some b ↔ l[i]? = some b ∨ i = l.length ∧ a = b := by
  rcases Nat.lt_trichotomy i l.length with hi | rfl | hi
  · rw [List.getElem?_append_left hi]
    simp [Nat.ne_of_lt hi]
  · simp
  · rw [List.getElem?_eq_none (by simp; omega), List.getElem?_eq_none (by omega)]
    simp [Nat.ne_of_gt hi]

/-- What is at a place of a list that has grown at its end, said of the elements that
satisfy `P`. -/
theorem exists_getElem?_concat_iff {α : Type} {P : α → Prop} {l : List α} {a : α} {i : Nat} :
    (∃ b, (l ++ [a])[i]? = some b ∧ P b) ↔ (∃ b, l[i]? = some b ∧ P b) ∨ i = l.length ∧ P a := by
  simp only [getElem?_concat_eq_some_iff]
  constructor
  · rintro ⟨b, hb | ⟨hi, rfl⟩, hP⟩
    · exact .inl ⟨b, hb, hP⟩
    · exact .inr ⟨hi, hP⟩
  · rintro (⟨b, hb, hP⟩ | ⟨hi, hP⟩)
    · exact ⟨b, .inl hb, hP⟩
    · exact ⟨a, .inr ⟨hi, rfl⟩, hP⟩

/-- The final states once one more element of a list has a state, which is the last one.
If states stand for the elements of a list and are final by a property of these, this goes
on to hold. -/
theorem mem_insert_last_iff {α : Type} {P : α → Prop} {finals : SortedSet Nat} {l : List α} {a : α}
    [Decidable (P a)] (h : ∀ i, i ∈ finals ↔ ∃ b, l[i]? = some b ∧ P b) (i : Nat) :
    i ∈ (if P a then finals.insert l.length else finals) ↔
      ∃ b, (l ++ [a])[i]? = some b ∧ P b := by
  rw [exists_getElem?_concat_iff, ← h]
  by_cases ha : P a
  · rw [if_pos ha, SortedSet.mem_insert, or_comm]
    simp [ha]
  · simp [ha]

/-- Names that tell the elements of a list apart have not been met before. A construction
that names its states in the order of a list therefore gives each element a state of its
own. -/
theorem not_mem_map_of_eq_append_cons {α β : Type} {f : α → β} {l done rest : List α} {x : α}
    (hnodup : l.Nodup) (hinj : ∀ x ∈ l, ∀ y ∈ l, f x = f y → x = y) (hl : l = done ++ x :: rest) :
    f x ∉ done.map f := by
  intro hmem
  obtain ⟨y, hy, hname⟩ := List.mem_map.mp hmem
  obtain rfl := hinj y (by simp [hl, hy]) x (by simp [hl]) hname
  rw [hl, List.nodup_append] at hnodup
  exact hnodup.2.2 y hy y List.mem_cons_self rfl

/-- In a list that holds nothing twice, an element is at one place, the one that searching
finds. -/
theorem getElem?_eq_some_iff_idxOf {α : Type} [BEq α] [LawfulBEq α] {l : List α} {a : α} {i : Nat}
    (hl : l.Nodup) (ha : a ∈ l) : l[i]? = some a ↔ i = l.idxOf a := by
  have hplace : l[l.idxOf a]? = some a := by
    rw [List.getElem?_eq_getElem (List.idxOf_lt_length_of_mem ha), List.getElem_idxOf]
  constructor
  · intro hi
    obtain ⟨hlt, -⟩ := List.getElem?_eq_some_iff.mp hi
    exact (List.getElem?_inj hlt hl).mp (hi.trans hplace.symm)
  · rintro rfl
    exact hplace

namespace StateTable

variable {t : StateTable} {s u : Nat}

/-- The label of a state, empty if there is no such state. -/
def nameOf (t : StateTable) (s : Nat) : String := t.labels.toList.getD s ""

theorem stateCount_eq {labels : List String} (h : t.labels.toList = labels) :
    t.stateCount = labels.length := by
  rw [← h, Labels.length_toList]
  rfl

/-- The state of a label is its place among the labels. -/
theorem find?_eq_some_iff {label : String} :
    t.find? label = some s ↔ t.labels.toList[s]? = some label := by
  rw [Labels.getElem?_toList]
  exact Labels.find?_eq_some_iff

theorem find?_eq_none_iff {label : String} : t.find? label = none ↔ label ∉ t.labels.toList :=
  Labels.find?_eq_none_iff_not_mem

/-- Asking for a label answers what is stored, and nothing else is an answer. -/
theorem label_eq_ok_iff {label : String} :
    t.label s = .ok label ↔ t.labels.get? s = some label := by
  unfold StateTable.label
  cases t.labels.get? s <;> simp

/-- Every state that exists has a label. Proofs speak of `nameOf`, which needs no such
condition, and come back to `label` by this lemma. -/
theorem label_eq_ok (hs : s < t.stateCount) : t.label s = .ok (t.nameOf s) := by
  have hlt : s < t.labels.toList.length := by rwa [Labels.length_toList]
  unfold StateTable.label
  rw [← Labels.getElem?_toList, nameOf, List.getD_eq_getElem?_getD,
    List.getElem?_eq_getElem hlt]
  rfl

/-- What is stored at a place of the labels is the name of that state. -/
theorem nameOf_eq {label : String} (h : t.labels.toList[s]? = some label) : t.nameOf s = label := by
  rw [nameOf, List.getD_eq_getElem?_getD, h]
  rfl

theorem getElem?_labels (hs : s < t.stateCount) : t.labels.toList[s]? = some (t.nameOf s) := by
  have hlt : s < t.labels.toList.length := by rwa [Labels.length_toList]
  rw [List.getElem?_eq_getElem hlt, nameOf_eq (List.getElem?_eq_getElem hlt)]

theorem nameOf_mem (hs : s < t.stateCount) : t.nameOf s ∈ t.labels.toList := by
  have hlt : s < t.labels.toList.length := by rwa [Labels.length_toList]
  unfold nameOf
  rw [List.getD_eq_getElem?_getD, List.getElem?_eq_getElem hlt]
  exact List.getElem_mem hlt

/-- No two states have the same name. This is how a state is known by its label alone. -/
theorem nameOf_inj (hs : s < t.stateCount) (hu : u < t.stateCount)
    (h : t.nameOf s = t.nameOf u) : s = u := by
  have hs' : s < t.labels.toList.length := by rwa [Labels.length_toList]
  have hu' : u < t.labels.toList.length := by rwa [Labels.length_toList]
  rw [nameOf, nameOf, List.getD_eq_getElem?_getD, List.getD_eq_getElem?_getD,
    List.getElem?_eq_getElem hs', List.getElem?_eq_getElem hu'] at h
  exact (List.getElem_inj t.labels.nodup_toList).mp h

end StateTable

-- ---------------------------------------------------------------------------
-- Paths
-- ---------------------------------------------------------------------------

namespace Nfa

variable {n : Nfa} {s t : Nat} {a : Symbol} {w : List Char}

/-- An edge comes out of a state that exists, as there is no row beyond the last state. -/
theorem Valid.source_lt (hn : n.Valid) (h : n.Edge s a t) : s < n.stateCount := by
  rcases Nat.lt_or_ge s n.stateCount with hs | hs
  · exact hs
  · exact absurd h (not_edge_of_size_le (hn.size_rows ▸ hs))

/-- A path does not leave the states that exist. The empty path stays where it is, so the
state that it begins with has to exist. -/
theorem Valid.path_lt (hn : n.Valid) (h : n.Path s w t) (hs : s < n.stateCount) :
    t < n.stateCount :=
  h.invariant (P := (· < n.stateCount)) (fun _ _ _ he _ => hn.edge_lt _ _ _ he) hs

/-- Nor does it come from elsewhere. -/
theorem Valid.path_source_lt (hn : n.Valid) (h : n.Path s w t) (ht : t < n.stateCount) :
    s < n.stateCount := by
  cases h with
  | refl => exact ht
  | step he _ => exact hn.source_lt (mem_transitions_iff.mp he)

end Nfa

end PatternAutomata
