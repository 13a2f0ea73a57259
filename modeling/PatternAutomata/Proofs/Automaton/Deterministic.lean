import PatternAutomata.Proofs.Automaton.Invariant
import PatternAutomata.Proofs.Outcome

/-!
# Pattern automata — what the deterministic operations do

Each operation on a deterministic automaton keeps its parts together, and it
changes where states lead in a way that is stated here by `nextOf`. A run follows
`nextOf` letter by letter and cannot fail where the parts fit together, so what
an automaton accepts is read off the state at the end of the word.

## Results

* `nextOf_withState`, `nextOf_link`, `nextOf_unlink` — what each operation changes.
* `Valid.addState`, `Valid.setStart`, … — every operation that succeeds keeps the parts together.
* `accepts_eq` — acceptance is the state after the word.
-/

namespace PatternAutomata

namespace Dfa

variable {d d' : Dfa} {s t : Nat} {s? : Option Nat} {c e : Char} {label : String} {w : List Char}
  {b : Bool}

theorem nextOf_some : d.nextOf (some s) c = (d.rows.getD s ∅).find? c := rfl

theorem nextOf_eq_none_of_size_le (h : d.rows.size ≤ s) : d.nextOf (some s) c = none := by
  rw [nextOf_some, Rows.getD_of_size_le h]
  rfl

/-- The listed transitions are where states lead. The list is what callers see, and
`nextOf` is what all proofs about deterministic automata are said in. -/
theorem mem_transitions_iff : (s, c, t) ∈ d.transitions ↔ d.nextOf (some s) c = some t := by
  have hrow : (s, c, t) ∈ d.transitions ↔ ∃ row, d.rows[s]? = some row ∧ row.find? c = some t := by
    simp only [transitions, List.mem_flatMap, List.mem_map, Prod.exists, Prod.mk.injEq,
      List.mem_zipIdx_iff_getElem?, Array.getElem?_toList]
    constructor
    · rintro ⟨row, i, hi, e, u, hentry, rfl, rfl, rfl⟩
      exact ⟨row, hi, SortedMap.find?_eq_some_iff.mpr hentry⟩
    · rintro ⟨row, hs, ht⟩
      exact ⟨row, s, hs, c, t, SortedMap.find?_eq_some_iff.mp ht, rfl, rfl, rfl⟩
  -- a missing row lists nothing, and is read as an empty one
  rw [hrow, nextOf_some, Array.getD_eq_getD_getElem?]
  cases hs : d.rows[s]? with
  | none => simp
  | some row => simp

/-- An automaton without states fits together, whatever letters it knows. Every
construction of a deterministic automaton starts from here. -/
theorem valid_empty (alphabet : SortedSet Char) : ({ alphabet := alphabet } : Dfa).Valid where
  start_lt _ hs := nomatch hs
  finals_lt _ hs := absurd hs SortedSet.not_mem_empty
  size_rows := rfl
  next_lt s c t h := by
    rw [nextOf_eq_none_of_size_le (Nat.zero_le s)] at h
    exact nomatch h
  next_alphabet s c t h := by
    rw [nextOf_eq_none_of_size_le (Nat.zero_le s)] at h
    exact nomatch h

-- ---------------------------------------------------------------------------
-- States
-- ---------------------------------------------------------------------------

/-- One more state, which leads nowhere. This is what `addState` leads to if the label is
a new one. -/
def withState (d : Dfa) (label : String) (h : d.find? label = none) : Dfa :=
  { d with toStateTable := d.push label h, rows := d.rows.push ∅ }

/-- A label that is not in use makes a state, and its number is that of the states before
it. -/
theorem addState_of_find?_eq_none (h : d.find? label = none) :
    d.addState label = (d.withState label h, d.stateCount) := by
  unfold addState
  split
  · rename_i s hs
    exact absurd (hs.symm.trans h) (Option.some_ne_none s)
  · rfl

/-- A label in use makes nothing: the answer is the state that has it. This is how a
construction merges two elements whose labels are the same. -/
theorem addState_of_find?_eq_some (h : d.find? label = some s) : d.addState label = (d, s) := by
  unfold addState
  split
  · rename_i t ht
    rw [Option.some.inj (ht.symm.trans h)]
  · rename_i hs
    exact absurd (h.symm.trans hs) (Option.some_ne_none s)

section WithState

variable {h : d.find? label = none}

@[simp] theorem toList_labels_withState :
    (d.withState label h).labels.toList = d.labels.toList ++ [label] := Labels.toList_push (h := h)

@[simp] theorem stateCount_withState : (d.withState label h).stateCount = d.stateCount + 1 :=
  Array.size_push ..

/-- All states lead where they led before. Beyond the last row an empty one is read, which
is what the new state has. -/
theorem nextOf_withState : (d.withState label h).nextOf s? c = d.nextOf s? c := by
  cases s? with
  | none => rfl
  | some s =>
    rw [nextOf_some, nextOf_some]
    exact congrArg (SortedMap.find? · c) Rows.getD_push_empty

/-- A new state keeps the parts together: nothing leads to it yet, and it has a row of its
own. -/
theorem Valid.withState (hd : d.Valid) : (d.withState label h).Valid where
  start_lt s hs := by
    have hlt := hd.start_lt s hs
    rw [stateCount_withState]
    omega
  finals_lt s hs := by
    have hlt := hd.finals_lt s hs
    rw [stateCount_withState]
    omega
  size_rows := by
    show (d.rows.push ∅).size = _
    rw [Array.size_push, hd.size_rows, stateCount_withState]
  next_lt s c t ht := by
    have hlt := hd.next_lt s c t (nextOf_withState.symm.trans ht)
    rw [stateCount_withState]
    omega
  next_alphabet s c t ht := hd.next_alphabet s c t (nextOf_withState.symm.trans ht)

end WithState

/-- Adding a state keeps the parts together, whether the label is a new one or in use. -/
theorem Valid.addState (hd : d.Valid) (label : String) : (d.addState label).1.Valid := by
  cases h : d.find? label with
  | none =>
    rw [addState_of_find?_eq_none h]
    exact hd.withState
  | some s =>
    rw [addState_of_find?_eq_some h]
    exact hd

-- ---------------------------------------------------------------------------
-- Start, final states and alphabet
-- ---------------------------------------------------------------------------

/-- The same transitions with another start. -/
def withStart (d : Dfa) (s : Nat) : Dfa := { d with start := some s }

/-- The same transitions with other final states. -/
def withFinals (d : Dfa) (finals : SortedSet Nat) : Dfa := { d with finals := finals }

theorem setStart_eq (hs : s < d.stateCount) : d.setStart s = .ok (d.withStart s) := by
  simp [setStart, StateTable.setStart, hs, withStart, pure, Except.pure, bind, Except.bind]

theorem setStart_eq_error (hs : ¬ s < d.stateCount) :
    d.setStart s = .error (.unknownStart s) := by
  simp [setStart, StateTable.setStart, hs, bind, Except.bind]

theorem addFinal_eq (hs : s < d.stateCount) :
    d.addFinal s = .ok (d.withFinals (d.finals.insert s)) := by
  simp [addFinal, StateTable.addFinal, hs, withFinals, pure, Except.pure, bind, Except.bind]

theorem addFinal_eq_error (hs : ¬ s < d.stateCount) :
    d.addFinal s = .error (.unknownFinal s) := by
  simp [addFinal, StateTable.addFinal, hs, bind, Except.bind]

/-- Setting the start succeeds exactly for a state that exists, and changes nothing but
the start. -/
theorem setStart_eq_ok_iff : d.setStart s = .ok d' ↔ s < d.stateCount ∧ d.withStart s = d' := by
  by_cases hs : s < d.stateCount
  · simp [setStart_eq hs, hs]
  · simp [setStart_eq_error hs, hs]

/-- Making a state final succeeds exactly for a state that exists, and changes nothing but
the final states. -/
theorem addFinal_eq_ok_iff :
    d.addFinal s = .ok d' ↔ s < d.stateCount ∧ d.withFinals (d.finals.insert s) = d' := by
  by_cases hs : s < d.stateCount
  · simp [addFinal_eq hs, hs]
  · simp [addFinal_eq_error hs, hs]

/-- The start may be any state that exists. -/
theorem Valid.withStart (hd : d.Valid) (hs : s < d.stateCount) : (d.withStart s).Valid where
  start_lt _ ht := Option.some.inj ht ▸ hs
  finals_lt := hd.finals_lt
  size_rows := hd.size_rows
  next_lt := hd.next_lt
  next_alphabet := hd.next_alphabet

/-- The final states may be any states that exist. Every operation on final states is a
case of this. -/
theorem Valid.withFinals {finals : SortedSet Nat} (hd : d.Valid)
    (h : ∀ s ∈ finals, s < d.stateCount) : (d.withFinals finals).Valid where
  start_lt := hd.start_lt
  finals_lt := h
  size_rows := hd.size_rows
  next_lt := hd.next_lt
  next_alphabet := hd.next_alphabet

/-- Setting the start keeps the parts together, as it is refused for any other number. -/
theorem Valid.setStart (hd : d.Valid) (h : d.setStart s = .ok d') : d'.Valid := by
  obtain ⟨hs, rfl⟩ := setStart_eq_ok_iff.mp h
  exact hd.withStart hs

/-- Making a state final keeps the parts together. -/
theorem Valid.addFinal (hd : d.Valid) (h : d.addFinal s = .ok d') : d'.Valid := by
  obtain ⟨hs, rfl⟩ := addFinal_eq_ok_iff.mp h
  refine hd.withFinals fun t ht => ?_
  rcases SortedSet.mem_insert.mp ht with rfl | ht
  · exact hs
  · exact hd.finals_lt t ht

theorem Valid.removeFinal (hd : d.Valid) (s : Nat) : (d.removeFinal s).Valid :=
  hd.withFinals fun t ht => hd.finals_lt t (SortedSet.mem_erase.mp ht).1

/-- A letter more in the alphabet does no harm. -/
theorem Valid.addSymbol (hd : d.Valid) (c : Char) : (d.addSymbol c).Valid where
  start_lt := hd.start_lt
  finals_lt := hd.finals_lt
  size_rows := hd.size_rows
  next_lt := hd.next_lt
  next_alphabet s e t h := SortedSet.mem_insert.mpr (.inr (hd.next_alphabet s e t h))

-- ---------------------------------------------------------------------------
-- Transitions
-- ---------------------------------------------------------------------------

/-- One transition in the place of the one on `c` before. A deterministic automaton has at
most one on each letter, so adding a transition can take another one away. -/
def link (d : Dfa) (s : Nat) (c : Char) (t : Nat) : Dfa :=
  { d with
    alphabet := d.alphabet.insert c
    rows := d.rows.setIfInBounds s ((d.rows.getD s ∅).insert c t) }

/-- No transition on `c`, wherever it led. -/
def unlink (d : Dfa) (s : Nat) (c : Char) : Dfa :=
  { d with rows := d.rows.setIfInBounds s ((d.rows.getD s ∅).erase c) }

theorem row_eq (hs : s < d.rows.size) : d.row s = .ok (d.rows.getD s ∅) :=
  Rows.lookup_eq_ok hs ∅

theorem row_eq_error (hs : ¬ s < d.rows.size) : d.row s = .error .outOfRange :=
  Rows.lookup_eq_error hs

theorem addTransition_eq (hs : s < d.rows.size) (ht : t < d.rows.size) :
    d.addTransition s c t = .ok (d.link s c t) := by
  unfold addTransition
  rw [if_neg (Nat.not_le.mpr ht), row_eq hs]
  rfl

/-- Asking a state that exists where it leads does not fail, and the answer is `nextOf`. -/
theorem next_eq (hs : s < d.rows.size) : d.next s c = .ok (d.nextOf (some s) c) := by
  unfold next
  rw [row_eq hs]
  rfl

/-- After a transition is added its source leads to the new target on its letter. All else
is as it was. -/
theorem nextOf_link (hs : s < d.rows.size) {x : Nat} :
    (d.link s c t).nextOf (some x) e =
      if x = s ∧ e = c then some t else d.nextOf (some x) e := by
  rw [nextOf_some, nextOf_some]
  show ((d.rows.setIfInBounds s _).getD x ∅).find? e = _
  rw [Rows.getD_setIfInBounds hs]
  by_cases hx : x = s
  · rw [if_pos hx, SortedMap.find?_insert, hx]
    simp
  · rw [if_neg hx, if_neg fun h => hx h.1]

/-- After a transition is deleted its source leads nowhere on its letter. All else is as
it was. -/
theorem nextOf_unlink (hs : s < d.rows.size) {x : Nat} :
    (d.unlink s c).nextOf (some x) e =
      if x = s ∧ e = c then none else d.nextOf (some x) e := by
  rw [nextOf_some, nextOf_some]
  show ((d.rows.setIfInBounds s _).getD x ∅).find? e = _
  rw [Rows.getD_setIfInBounds hs]
  by_cases hx : x = s
  · rw [if_pos hx, SortedMap.find?_erase, hx]
    simp
  · rw [if_neg hx, if_neg fun h => hx h.1]

/-- A transition between states that exist keeps the parts together; its letter joins the
alphabet. -/
theorem Valid.link (hd : d.Valid) (hs : s < d.stateCount) (ht : t < d.stateCount) :
    (d.link s c t).Valid where
  start_lt := hd.start_lt
  finals_lt := hd.finals_lt
  size_rows := Array.size_setIfInBounds.trans hd.size_rows
  next_lt x e y h := by
    rw [nextOf_link (hd.size_rows ▸ hs)] at h
    split at h
    · exact Option.some.inj h ▸ ht
    · exact hd.next_lt x e y h
  next_alphabet x e y h := by
    rw [nextOf_link (hd.size_rows ▸ hs)] at h
    split at h
    · rename_i hxe
      exact SortedSet.mem_insert.mpr (.inl hxe.2)
    · exact SortedSet.mem_insert.mpr (.inr (hd.next_alphabet x e y h))

/-- Deleting a transition keeps the parts together. The alphabet may keep a letter that
nothing reads. -/
theorem Valid.unlink (hd : d.Valid) (hs : s < d.stateCount) : (d.unlink s c).Valid where
  start_lt := hd.start_lt
  finals_lt := hd.finals_lt
  size_rows := Array.size_setIfInBounds.trans hd.size_rows
  next_lt x e y h := by
    rw [nextOf_unlink (hd.size_rows ▸ hs)] at h
    split at h
    · exact nomatch h
    · exact hd.next_lt x e y h
  next_alphabet x e y h := by
    rw [nextOf_unlink (hd.size_rows ▸ hs)] at h
    split at h
    · exact nomatch h
    · exact hd.next_alphabet x e y h

/-- A transition is added between states that exist, or not at all. -/
theorem addTransition_eq_ok_iff :
    d.addTransition s c t = .ok d' ↔ s < d.rows.size ∧ t < d.rows.size ∧ d.link s c t = d' := by
  by_cases ht : t < d.rows.size
  · by_cases hs : s < d.rows.size
    · simp [addTransition_eq hs ht, hs, ht]
    · simp [addTransition, row_eq_error hs, Nat.not_le.mpr ht, hs, bind, Except.bind]
  · simp [addTransition, Nat.le_of_not_lt ht, ht]

/-- From a state that exists a transition is deleted if it leads to the target that is
named. Another target on the same letter stays, and the answer says that nothing was
found. -/
theorem deleteTransition_eq (hs : s < d.rows.size) :
    d.deleteTransition s c t =
      .ok (if d.nextOf (some s) c = some t then (d.unlink s c, true) else (d, false)) := by
  rw [deleteTransition, row_eq hs, ok_bind, nextOf_some]
  by_cases ht : (d.rows.getD s ∅).find? c = some t
  · rw [if_pos ht, if_pos ht]
    rfl
  · rw [if_neg ht, if_neg ht]
    rfl

/-- A transition is deleted from a state that exists, or the operation fails. What is
answered follows from the automaton alone, so the statement names it. -/
theorem deleteTransition_eq_ok_iff :
    d.deleteTransition s c t = .ok (d', b) ↔ s < d.rows.size ∧
      (if d.nextOf (some s) c = some t then (d.unlink s c, true) else (d, false)) = (d', b) := by
  by_cases hs : s < d.rows.size
  · rw [deleteTransition_eq hs, Except.ok.injEq]
    exact (and_iff_right hs).symm
  · rw [Dfa.deleteTransition, row_eq_error hs]
    exact iff_of_false nofun fun h => hs h.1

theorem Valid.addTransition (hd : d.Valid) (h : d.addTransition s c t = .ok d') : d'.Valid := by
  obtain ⟨hs, ht, rfl⟩ := addTransition_eq_ok_iff.mp h
  exact hd.link (hd.size_rows ▸ hs) (hd.size_rows ▸ ht)

/-- Deleting a transition keeps the parts together, whether it was there or not. -/
theorem Valid.deleteTransition (hd : d.Valid) (h : d.deleteTransition s c t = .ok (d', b)) :
    d'.Valid := by
  obtain ⟨hs, h⟩ := deleteTransition_eq_ok_iff.mp h
  split at h
  · exact (Prod.mk.inj h).1 ▸ hd.unlink (hd.size_rows ▸ hs)
  · exact (Prod.mk.inj h).1 ▸ hd

-- ---------------------------------------------------------------------------
-- Runs
-- ---------------------------------------------------------------------------

/-- The state after a word, none if the run has left the automaton on the way. Once there
is no state there will be none, so the empty place works like a state from which nothing
is accepted. -/
def afterWord (d : Dfa) (s? : Option Nat) (w : List Char) : Option Nat := w.foldl d.nextOf s?

theorem afterWord_none : d.afterWord none w = none := by
  induction w with
  | nil => rfl
  | cons c w ih => exact ih

/-- A run follows `nextOf`, and does not fail. Each state on the way exists, since the
automaton leads to states that exist only, so every row that is read is there. -/
theorem run_eq (hd : d.Valid) (hs : ∀ s, s? = some s → s < d.stateCount) (w : List Char) :
    d.run s? w = .ok (d.afterWord s? w) := by
  induction w generalizing s? with
  | nil => rfl
  | cons c w ih =>
    cases s? with
    | none => exact congrArg Except.ok (afterWord_none (w := c :: w)).symm
    | some s =>
      rw [run, next_eq (hd.size_rows.symm ▸ hs s rfl), ok_bind]
      exact ih fun t ht => hd.next_lt s c t ht

/-- Acceptance is the state after the word: whether it is there and is final. Everything
that is proved about languages of deterministic automata goes through this lemma. -/
theorem accepts_eq (hd : d.Valid) (word : String) :
    d.accepts word = .ok (d.isFinal? (d.afterWord d.start word.toList)) := by
  unfold accepts
  rw [run_eq hd hd.start_lt]
  rfl

/-- The state after a word exists, if the run began at one that does. The induction is on
the word, and each step leads to a state that exists. -/
theorem afterWord_lt (hd : d.Valid) (hs : ∀ s, s? = some s → s < d.stateCount) :
    ∀ t, d.afterWord s? w = some t → t < d.stateCount := by
  induction w generalizing s? with
  | nil => exact hs
  | cons c w ih =>
    cases s? with
    | none => exact ih nofun
    | some s => exact ih fun t ht => hd.next_lt s c t ht

/-- No state is left after a letter outside of the alphabet, wherever in the word it
stands. -/
theorem afterWord_eq_none (hd : d.Valid) (h : ∃ c ∈ w, c ∉ d.alphabet) :
    d.afterWord s? w = none := by
  induction w generalizing s? with
  | nil =>
    obtain ⟨c, hc, -⟩ := h
    exact absurd hc List.not_mem_nil
  | cons e w ih =>
    obtain ⟨c, hc, hnot⟩ := h
    rcases List.mem_cons.mp hc with rfl | hc
    · -- this is the letter: a transition on it would have put it into the alphabet
      have hnone : d.nextOf s? c = none := by
        cases s? with
        | none => rfl
        | some s =>
          refine Option.eq_none_iff_forall_ne_some.mpr fun t ht => ?_
          exact hnot (hd.next_alphabet s c t ht)
      show d.afterWord (d.nextOf s? c) w = none
      rw [hnone, afterWord_none]
    · exact ih ⟨c, hc, hnot⟩

end Dfa

end PatternAutomata
