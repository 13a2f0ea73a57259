import PatternAutomata.Proofs.Automaton.Invariant
import PatternAutomata.Proofs.Outcome

/-!
# Pattern automata — what the operations do

Each operation on a nondeterministic automaton is taken in the form in which
constructions use it: it succeeds on states that exist, and it changes the
labels, the edges and the other parts in a way that is stated here once.

Transitions are added in groups. `extend` adds a list of transitions and a list
of ties, and two extensions in turn are one, so a loop that adds transitions is
one extension by all of them (`foldlM_extend`).

## Results

* `addState_of_find?_eq_none`   — a fresh label makes a state without edges.
* `edge_extend`, `Valid.extend` — the edges after an extension.
* `absorb_eq_ok`, `absorb_eq_error` — automata that share no label are merged iff all
  ties can be raised.
* `edge_merge`, `Valid.merge`   — the merged automata lie side by side.
* `Valid.addState`, `Valid.setStart`, … — every operation that succeeds keeps the parts together.
-/

namespace PatternAutomata

namespace Nfa

variable {n m : Nfa} {s t x y : Nat} {a b : Symbol} {c : Char} {l : String}

/-- An automaton without states fits together, whatever letters it knows: there is no
state to be referred to. Every construction starts from here. -/
theorem valid_empty (alphabet : SortedSet Char) : ({ alphabet := alphabet } : Nfa).Valid where
  start_lt _ hs := nomatch hs
  finals_lt _ hs := absurd hs SortedSet.not_mem_empty
  size_rows := rfl
  edge_lt _ _ _ he := absurd he (not_edge_of_size_le (Nat.zero_le _))
  edge_alphabet _ _ _ he := absurd he (not_edge_of_size_le (Nat.zero_le _))
  targets_ne s a := by simp

-- ---------------------------------------------------------------------------
-- States
-- ---------------------------------------------------------------------------

/-- One more state, without edges. This is what `addState` leads to if the label is a new
one, said without the search for the label. -/
def withState (n : Nfa) (l : String) (h : n.find? l = none) : Nfa :=
  { n with toStateTable := n.push l h, rows := n.rows.push ∅ }

/-- A label that is not in use makes a state, and its number is that of the states before
it. -/
theorem addState_of_find?_eq_none (h : n.find? l = none) :
    n.addState l = (n.withState l h, n.stateCount) := by
  unfold addState
  split
  · rename_i s hs
    exact absurd (hs.symm.trans h) (Option.some_ne_none s)
  · rfl

/-- A label in use makes nothing: the answer is the state that has it. So a construction
that meets one label twice merges two states without a fault. -/
theorem addState_of_find?_eq_some (h : n.find? l = some s) : n.addState l = (n, s) := by
  unfold addState
  split
  · rename_i t ht
    rw [Option.some.inj (ht.symm.trans h)]
  · rename_i hs
    exact absurd (h.symm.trans hs) (Option.some_ne_none s)

section WithState

variable {h : n.find? l = none}

@[simp] theorem toList_labels_withState :
    (n.withState l h).labels.toList = n.labels.toList ++ [l] := Labels.toList_push (h := h)

@[simp] theorem stateCount_withState : (n.withState l h).stateCount = n.stateCount + 1 :=
  Array.size_push ..

/-- Rows are read as before. The new state has an empty row, and beyond the last row an
empty one is read anyway, so there is nothing to tell the two apart. -/
theorem getD_rows_withState : (n.withState l h).rows.getD s ∅ = n.rows.getD s ∅ :=
  Rows.getD_push_empty

@[simp] theorem edge_withState : (n.withState l h).Edge s a t ↔ n.Edge s a t := by
  rw [edge_iff, edge_iff, getD_rows_withState]

/-- A new state keeps the parts together: nothing refers to it yet, and it has a row of
its own. -/
theorem Valid.withState (hn : n.Valid) : (n.withState l h).Valid where
  start_lt s hs := by
    have hlt := hn.start_lt s hs
    rw [stateCount_withState]
    omega
  finals_lt s hs := by
    have hlt := hn.finals_lt s hs
    rw [stateCount_withState]
    omega
  size_rows := by
    show (n.rows.push ∅).size = _
    rw [Array.size_push, hn.size_rows, stateCount_withState]
  edge_lt s a t he := by
    have hlt := hn.edge_lt s a t (edge_withState.mp he)
    rw [stateCount_withState]
    omega
  edge_alphabet s c t he := hn.edge_alphabet s c t (edge_withState.mp he)
  targets_ne s a := getD_rows_withState (h := h) ▸ hn.targets_ne s a

end WithState

/-- Adding a state keeps the parts together, whether the label is a new one or in use. In
the second case nothing changes at all. -/
theorem Valid.addState (hn : n.Valid) (l : String) : (n.addState l).1.Valid := by
  cases h : n.find? l with
  | none =>
    rw [addState_of_find?_eq_none h]
    exact hn.withState
  | some s =>
    rw [addState_of_find?_eq_some h]
    exact hn

-- ---------------------------------------------------------------------------
-- Start and final states
-- ---------------------------------------------------------------------------

/-- The same transitions with another start. -/
def withStart (n : Nfa) (s : Nat) : Nfa := { n with start := some s }

/-- The same transitions with other final states. -/
def withFinals (n : Nfa) (finals : SortedSet Nat) : Nfa := { n with finals := finals }

section WithFinals

variable {finals : SortedSet Nat}

@[simp] theorem finals_withFinals : (n.withFinals finals).finals = finals := rfl

@[simp] theorem alphabet_withFinals : (n.withFinals finals).alphabet = n.alphabet := rfl

@[simp] theorem edge_withFinals : (n.withFinals finals).Edge x a y ↔ n.Edge x a y := Iff.rfl

end WithFinals

theorem setStart_eq (hs : s < n.stateCount) : n.setStart s = .ok (n.withStart s) := by
  simp [setStart, StateTable.setStart, hs, withStart, pure, Except.pure, bind, Except.bind]

theorem setStart_eq_error (hs : ¬ s < n.stateCount) :
    n.setStart s = .error (.unknownStart s) := by
  simp [setStart, StateTable.setStart, hs, bind, Except.bind]

theorem addFinal_eq (hs : s < n.stateCount) :
    n.addFinal s = .ok (n.withFinals (n.finals.insert s)) := by
  simp [addFinal, StateTable.addFinal, hs, withFinals, pure, Except.pure, bind, Except.bind]

theorem addFinal_eq_error (hs : ¬ s < n.stateCount) :
    n.addFinal s = .error (.unknownFinal s) := by
  simp [addFinal, StateTable.addFinal, hs, bind, Except.bind]

/-- Setting the start succeeds exactly for a state that exists, and changes nothing but
the start. -/
theorem setStart_eq_ok_iff : n.setStart s = .ok m ↔ s < n.stateCount ∧ n.withStart s = m := by
  by_cases hs : s < n.stateCount
  · simp [setStart_eq hs, hs]
  · simp [setStart_eq_error hs, hs]

/-- Making a state final succeeds exactly for a state that exists, and changes nothing but
the final states. -/
theorem addFinal_eq_ok_iff :
    n.addFinal s = .ok m ↔ s < n.stateCount ∧ n.withFinals (n.finals.insert s) = m := by
  by_cases hs : s < n.stateCount
  · simp [addFinal_eq hs, hs]
  · simp [addFinal_eq_error hs, hs]

/-- The start may be any state that exists; no other part looks at it. -/
theorem Valid.withStart (hn : n.Valid) (hs : s < n.stateCount) : (n.withStart s).Valid where
  start_lt _ ht := Option.some.inj ht ▸ hs
  finals_lt := hn.finals_lt
  size_rows := hn.size_rows
  edge_lt := hn.edge_lt
  edge_alphabet := hn.edge_alphabet
  targets_ne := hn.targets_ne

/-- The final states may be any states that exist. Every operation on final states is a
case of this. -/
theorem Valid.withFinals {finals : SortedSet Nat} (hn : n.Valid)
    (h : ∀ s ∈ finals, s < n.stateCount) : (n.withFinals finals).Valid where
  start_lt := hn.start_lt
  finals_lt := h
  size_rows := hn.size_rows
  edge_lt := hn.edge_lt
  edge_alphabet := hn.edge_alphabet
  targets_ne := hn.targets_ne

/-- Setting the start keeps the parts together: it is refused for any other number. -/
theorem Valid.setStart (hn : n.Valid) (h : n.setStart s = .ok m) : m.Valid := by
  obtain ⟨hs, rfl⟩ := setStart_eq_ok_iff.mp h
  exact hn.withStart hs

/-- Making a state final keeps the parts together, and so does making it one that is not,
whether it was final or not. -/
theorem Valid.addFinal (hn : n.Valid) (h : n.addFinal s = .ok m) : m.Valid := by
  obtain ⟨hs, rfl⟩ := addFinal_eq_ok_iff.mp h
  refine hn.withFinals fun t ht => ?_
  rcases SortedSet.mem_insert.mp ht with rfl | ht
  · exact hs
  · exact hn.finals_lt t ht

theorem Valid.removeFinal (hn : n.Valid) (s : Nat) : (n.removeFinal s).Valid :=
  hn.withFinals fun t ht => hn.finals_lt t (SortedSet.mem_erase.mp ht).1

theorem Valid.clearFinals (hn : n.Valid) : n.clearFinals.Valid :=
  hn.withFinals fun _ hs => absurd hs SortedSet.not_mem_empty

/-- A letter more in the alphabet does no harm, as every letter of a transition is still
there. -/
theorem Valid.addSymbol (hn : n.Valid) (c : Char) : (n.addSymbol c).Valid where
  start_lt := hn.start_lt
  finals_lt := hn.finals_lt
  size_rows := hn.size_rows
  edge_lt := hn.edge_lt
  edge_alphabet s e t h := SortedSet.mem_insert.mpr (.inr (hn.edge_alphabet s e t h))
  targets_ne := hn.targets_ne

-- ---------------------------------------------------------------------------
-- Transitions and ties
-- ---------------------------------------------------------------------------

/-- A row with one target more leads where it led before, and on that symbol also to the
target. -/
theorem mem_rowTargets_insertTarget {row : SortedMap Symbol (SortedSet Nat)} :
    y ∈ rowTargets (insertTarget row a t) b ↔ y ∈ rowTargets row b ∨ b = a ∧ y = t := by
  rw [rowTargets, insertTarget, SortedMap.find?_insert]
  by_cases hb : b = a
  · subst hb
    simp [or_comm]
  · simp [hb, rowTargets]

/-- More transitions, each between states that exist, and more ties. A list is taken at
once, so that what a loop adds is stated in one piece and not step by step. -/
def extend (n : Nfa) (edges : List (Nat × Symbol × Nat)) (ties : List Tie) : Nfa :=
  { n with
    alphabet := edges.foldl (fun alphabet e => noteSymbol alphabet e.2.1) n.alphabet
    rows := edges.foldl (fun rows e =>
      rows.setIfInBounds e.1 (insertTarget (rows.getD e.1 ∅) e.2.1 e.2.2)) n.rows
    ties := n.ties ++ ties.toArray }

theorem extend_nil : n.extend [] [] = n := by
  simp [extend]

/-- Two extensions in turn are one, by both lists. This is why an extension takes lists. -/
theorem extend_extend {es es' : List (Nat × Symbol × Nat)} {ts ts' : List Tie} :
    (n.extend es ts).extend es' ts' = n.extend (es ++ es') (ts ++ ts') := by
  simp [extend]

theorem recordTie_eq {tie : Tie} : n.recordTie tie = n.extend [] [tie] := by
  simp [extend, recordTie]

/-- Between states that exist, adding a transition is an extension by this transition
alone. -/
theorem addTransition_eq (hs : s < n.rows.size) (ht : t < n.rows.size) :
    n.addTransition s a t = .ok (n.extend [(s, a, t)] []) := by
  unfold addTransition
  rw [if_neg (Nat.not_le.mpr ht), row, Array.getElem?_eq_getElem hs]
  simp [extend, hs, pure, Except.pure, bind, Except.bind]

/-- A loop that extends the automaton at every step is one extension. What a step adds may
depend on the element, but not on what the steps before it have added: the hypothesis is
asked of every extension of the automaton that the loop began with. -/
theorem foldlM_extend {β : Type} {g : Nfa → β → Except Fault Nfa} {l : List β}
    (es : β → List (Nat × Symbol × Nat)) (ts : β → List Tie)
    (h : ∀ es' ts', ∀ x ∈ l,
      g (n.extend es' ts') x = .ok ((n.extend es' ts').extend (es x) (ts x))) :
    l.foldlM g n = .ok (n.extend (l.flatMap es) (l.flatMap ts)) := by
  -- for the induction the loop has to begin at any extension, not only at the empty one
  have hrun : ∀ es' ts', l.foldlM g (n.extend es' ts') =
      .ok ((n.extend es' ts').extend (l.flatMap es) (l.flatMap ts)) := by
    induction l with
    | nil => exact fun es' ts' => congrArg Except.ok extend_nil.symm
    | cons x l ih =>
      intro es' ts'
      rw [List.foldlM_cons, h es' ts' x List.mem_cons_self]
      show l.foldlM g ((n.extend es' ts').extend (es x) (ts x)) = _
      rw [extend_extend, ih fun es' ts' y hy => h es' ts' y (List.mem_cons_of_mem _ hy)]
      simp only [extend_extend, List.flatMap_cons, List.append_assoc]
  simpa only [extend_nil] using hrun [] []

section Extend

variable {es : List (Nat × Symbol × Nat)} {ts : List Tie}

@[simp] theorem finals_extend : (n.extend es ts).finals = n.finals := rfl

/-- An extension by a list is made transition by transition, which is what inductions on
the list use. -/
theorem extend_cons {e : Nat × Symbol × Nat} :
    n.extend (e :: es) ts = (n.extend [e] []).extend es ts := by
  rw [extend_extend]
  rfl

/-- No row is added, so a state that exists before exists afterwards, and no other. -/
@[simp] theorem size_rows_extend : (n.extend es ts).rows.size = n.rows.size := by
  induction es generalizing n with
  | nil => rfl
  | cons e es ih =>
    rw [extend_cons, ih]
    exact Array.size_setIfInBounds ..

/-- One transition more at the end of an extension. The bounds are those of the automaton
that was extended, so that they are shown once and not for every step of a loop. -/
theorem addTransition_extend (hs : s < n.rows.size) (ht : t < n.rows.size) :
    (n.extend es ts).addTransition s a t = .ok (n.extend (es ++ [(s, a, t)]) ts) := by
  rw [addTransition_eq (by rwa [size_rows_extend]) (by rwa [size_rows_extend]), extend_extend,
    List.append_nil]

/-- One transition changes the row of its source and no other row. -/
theorem getD_rows_extend_single {e : Nat × Symbol × Nat} (h : e.1 < n.rows.size) :
    (n.extend [e] []).rows.getD s ∅ =
      if s = e.1 then insertTarget (n.rows.getD s ∅) e.2.1 e.2.2 else n.rows.getD s ∅ := by
  refine (Rows.getD_setIfInBounds h).trans ?_
  by_cases hs : s = e.1
  · rw [if_pos hs, if_pos hs, hs]
  · rw [if_neg hs, if_neg hs]

/-- The edges of an extension are those from before and the added ones. Sources have to
exist: a transition out of a missing row would be lost. -/
theorem edge_extend (h : ∀ e ∈ es, e.1 < n.rows.size) :
    (n.extend es ts).Edge x b y ↔ n.Edge x b y ∨ (x, b, y) ∈ es := by
  induction es generalizing n with
  | nil => simp [extend, edge_iff]
  | cons e es ih =>
    obtain ⟨s, a, t⟩ := e
    have hs : s < n.rows.size := h _ List.mem_cons_self
    -- a single transition changes one row; the rest of the list is the induction
    -- hypothesis
    have hsingle : (n.extend [(s, a, t)] []).Edge x b y ↔
        n.Edge x b y ∨ (x, b, y) = (s, a, t) := by
      rw [edge_iff, edge_iff, getD_rows_extend_single hs]
      by_cases hx : x = s
      · simp [hx, mem_rowTargets_insertTarget]
      · simp [hx]
    rw [extend_cons, ih (by simpa using fun a b c he => h _ (List.mem_cons_of_mem _ he)), hsingle,
      List.mem_cons, or_assoc]

/-- The alphabet gains the letters of the added transitions; `ε` is not one of them. It
never loses a letter. -/
theorem mem_alphabet_extend :
    c ∈ (n.extend es ts).alphabet ↔ c ∈ n.alphabet ∨ ∃ x y, (x, .char c, y) ∈ es := by
  induction es generalizing n with
  | nil => simp [extend]
  | cons e es ih =>
    obtain ⟨s, a, t⟩ := e
    -- one transition: its letter is noted, if it has one
    have hsingle : c ∈ (n.extend [(s, a, t)] []).alphabet ↔ c ∈ n.alphabet ∨ a = .char c := by
      show c ∈ noteSymbol n.alphabet a ↔ _
      cases a <;> simp [noteSymbol, or_comm, eq_comm]
    rw [extend_cons, ih, hsingle]
    simp only [List.mem_cons, Prod.mk.injEq]
    constructor
    · rintro ((hc | rfl) | ⟨x, y, he⟩)
      · exact .inl hc
      · exact .inr ⟨s, t, .inl ⟨rfl, rfl, rfl⟩⟩
      · exact .inr ⟨x, y, .inr he⟩
    · rintro (hc | ⟨x, y, ⟨rfl, rfl, rfl⟩ | he⟩)
      · exact .inl (.inl hc)
      · exact .inl (.inr rfl)
      · exact .inr ⟨x, y, he⟩

/-- No symbol of a row is left with an empty set of targets. Rows are compared as they are
stored, so an empty set would be another row with the same edges. -/
theorem targets_ne_extend (h : ∀ e ∈ es, e.1 < n.rows.size)
    (hn : ∀ s a, (n.rows.getD s ∅).find? a ≠ some ∅) :
    ((n.extend es ts).rows.getD s ∅).find? a ≠ some ∅ := by
  induction es generalizing n s a with
  | nil => exact hn s a
  | cons e es ih =>
    rw [extend_cons]
    refine ih (by simpa using fun a b c he => h _ (List.mem_cons_of_mem _ he)) fun s a => ?_
    rw [getD_rows_extend_single (h e List.mem_cons_self)]
    split
    · unfold insertTarget
      rw [SortedMap.find?_insert]
      split
      · -- the set on this symbol has the new target in it
        intro hempty
        have hmem : e.2.2 ∈ (rowTargets (n.rows.getD s ∅) e.2.1).insert e.2.2 :=
          SortedSet.mem_insert.mpr (.inl rfl)
        rw [Option.some.inj hempty] at hmem
        exact SortedSet.not_mem_empty hmem
      · exact hn s a
    · exact hn s a

/-- An extension between states that exist keeps the parts together. All constructions
that add transitions are extensions, so this is where they are shown to be valid. -/
theorem Valid.extend (hn : n.Valid)
    (h : ∀ e ∈ es, e.1 < n.stateCount ∧ e.2.2 < n.stateCount) : (n.extend es ts).Valid := by
  have hsource : ∀ e ∈ es, e.1 < n.rows.size := fun e he => hn.size_rows ▸ (h e he).1
  refine {
    start_lt := hn.start_lt
    finals_lt := hn.finals_lt
    size_rows := size_rows_extend.trans hn.size_rows
    edge_lt := fun s a t he => ?_
    edge_alphabet := fun s c t he => ?_
    targets_ne := fun s a => targets_ne_extend hsource hn.targets_ne }
  · -- an edge of the extension is an old one or one of the list
    rcases (edge_extend hsource).mp he with he | he
    · exact hn.edge_lt s a t he
    · exact (h _ he).2
  · rcases (edge_extend hsource).mp he with he | he
    · exact mem_alphabet_extend.mpr (.inl (hn.edge_alphabet s c t he))
    · exact mem_alphabet_extend.mpr (.inr ⟨s, t, he⟩)

end Extend

/-- The row of a state that exists can be read, and is the one that edges are read off. -/
theorem row_eq (hs : s < n.rows.size) : n.row s = .ok (n.rows.getD s ∅) :=
  Rows.lookup_eq_ok hs ∅

theorem row_eq_error (hs : ¬ s < n.rows.size) : n.row s = .error .outOfRange :=
  Rows.lookup_eq_error hs

/-- A transition is added between states that exist, or not at all: if one of its ends is
missing, the operation fails and nothing has changed. -/
theorem addTransition_eq_ok_iff :
    n.addTransition s a t = .ok m ↔
      s < n.rows.size ∧ t < n.rows.size ∧ n.extend [(s, a, t)] [] = m := by
  by_cases ht : t < n.rows.size
  · by_cases hs : s < n.rows.size
    · simp [addTransition_eq hs ht, hs, ht]
    · simp [addTransition, row_eq_error hs, Nat.not_le.mpr ht, hs, bind, Except.bind]
  · simp [addTransition, Nat.le_of_not_lt ht, ht]

/-- Adding a transition keeps the parts together: it fails if one of its ends is missing. -/
theorem Valid.addTransition (hn : n.Valid) (h : n.addTransition s a t = .ok m) : m.Valid := by
  obtain ⟨hs, ht, rfl⟩ := addTransition_eq_ok_iff.mp h
  rw [hn.size_rows] at hs ht
  exact hn.extend (by simpa using ⟨hs, ht⟩)

/-- Ties are only remembered. They may be between any numbers, since nothing else depends
on them. -/
theorem Valid.recordTie (hn : n.Valid) (tie : Tie) : (n.recordTie tie).Valid :=
  recordTie_eq ▸ hn.extend (by simp)

/-- No transition on `a` to `t`. This is what `deleteTransition` leads to from a state
that exists. -/
def unlink (n : Nfa) (s : Nat) (a : Symbol) (t : Nat) : Nfa :=
  { n with rows := n.rows.setIfInBounds s (eraseTarget (n.rows.getD s ∅) a t) }

/-- What a row holds on each symbol once a target is erased: if no target is left, the
symbol is not there any more. -/
theorem find?_eraseTarget {row : SortedMap Symbol (SortedSet Nat)} :
    (eraseTarget row a t).find? b =
      if b = a then
        if ((rowTargets row a).erase t).isEmpty then none else some ((rowTargets row a).erase t)
      else row.find? b := by
  unfold eraseTarget
  dsimp only
  by_cases hempty : ((rowTargets row a).erase t).isEmpty = true
  · rw [if_pos hempty, if_pos hempty, SortedMap.find?_erase]
  · rw [if_neg hempty, if_neg hempty, SortedMap.find?_insert]

/-- A row with one target less leads where it led before, save on that symbol to that
target. -/
theorem mem_rowTargets_eraseTarget {row : SortedMap Symbol (SortedSet Nat)} :
    y ∈ rowTargets (eraseTarget row a t) b ↔ y ∈ rowTargets row b ∧ ¬ (b = a ∧ y = t) := by
  rw [rowTargets, find?_eraseTarget]
  by_cases hb : b = a
  · subst hb
    have hmem : y ∈ (rowTargets row b).erase t ↔ y ∈ rowTargets row b ∧ ¬ (b = b ∧ y = t) := by
      simp
    rw [if_pos rfl, ← hmem]
    split
    · -- the symbol is gone, and it had no other target
      rename_i hempty
      exact iff_of_false SortedSet.not_mem_empty (SortedSet.isEmpty_iff.mp hempty y)
    · rfl
  · rw [if_neg hb]
    simp [hb, rowTargets]

/-- Erasing never leaves an empty set behind, as the symbol goes with its last target. So
a symbol that is in a row leads somewhere. -/
theorem targets_ne_eraseTarget {row : SortedMap Symbol (SortedSet Nat)}
    (h : ∀ b, row.find? b ≠ some ∅) : (eraseTarget row a t).find? b ≠ some ∅ := by
  rw [find?_eraseTarget]
  split
  · split
    · exact (Option.some_ne_none _).symm
    · rename_i hne
      exact fun hempty => hne (Option.some.inj hempty ▸ rfl)
  · exact h b

/-- Deleting a transition changes the row of its source and no other row. -/
theorem getD_rows_unlink (hs : s < n.rows.size) :
    (n.unlink s a t).rows.getD x ∅ =
      if x = s then eraseTarget (n.rows.getD s ∅) a t else n.rows.getD x ∅ :=
  Rows.getD_setIfInBounds hs

/-- All other edges are left, and this one is gone, whether it was there or not. -/
theorem edge_unlink (hs : s < n.rows.size) :
    (n.unlink s a t).Edge x b y ↔ n.Edge x b y ∧ (x, b, y) ≠ (s, a, t) := by
  rw [edge_iff, getD_rows_unlink hs]
  by_cases hx : x = s
  · subst hx
    rw [if_pos rfl, mem_rowTargets_eraseTarget, edge_iff]
    simp
  · rw [if_neg hx, edge_iff]
    simp [hx]

/-- Deleting a transition keeps the parts together. The alphabet may keep a letter that no
transition reads any more. -/
theorem Valid.unlink (hn : n.Valid) (hs : s < n.rows.size) : (n.unlink s a t).Valid where
  start_lt := hn.start_lt
  finals_lt := hn.finals_lt
  size_rows := Array.size_setIfInBounds.trans hn.size_rows
  edge_lt x b y h := hn.edge_lt x b y ((edge_unlink hs).mp h).1
  edge_alphabet x c y h := hn.edge_alphabet x c y ((edge_unlink hs).mp h).1
  targets_ne x b := by
    rw [getD_rows_unlink hs]
    by_cases hx : x = s
    · rw [if_pos hx]
      exact targets_ne_eraseTarget (hn.targets_ne s)
    · rw [if_neg hx]
      exact hn.targets_ne x b

/-- A transition is deleted from a state that exists, or not at all. The answer says
whether there was such a transition; if there was none, nothing changes. -/
theorem deleteTransition_eq_ok_iff {found : Bool} :
    n.deleteTransition s a t = .ok (m, found) ↔
      s < n.rows.size ∧ n.unlink s a t = m ∧
        decide (t ∈ rowTargets (n.rows.getD s ∅) a) = found := by
  by_cases hs : s < n.rows.size
  · rw [deleteTransition, row_eq hs, ok_bind]
    simp [unlink, hs, pure, Except.pure]
  · simp [deleteTransition, row_eq_error hs, hs, bind, Except.bind]

theorem Valid.deleteTransition {found : Bool} (hn : n.Valid)
    (h : n.deleteTransition s a t = .ok (m, found)) : m.Valid := by
  obtain ⟨hs, rfl, -⟩ := deleteTransition_eq_ok_iff.mp h
  exact hn.unlink hs

-- ---------------------------------------------------------------------------
-- Two automata side by side
-- ---------------------------------------------------------------------------

/-- Raises both numbers of a tie, with no bound on the sums. -/
def raiseTie (offset : Nat) (t : Tie) : Tie :=
  { t with source := t.source + offset, target := t.target + offset }

/-- Can the number be raised? The number of a state always can, since states that exist
are few; any other number has to stay below the largest word. -/
def Raisable (count offset s : Nat) : Prop := s < count ∨ s + offset ≤ maxWord

/-- Can all ties be raised? Ties that constructions record are between states and always
can. Only a tie that was recorded by hand, with a number from elsewhere, can stand in the
way. -/
def TiesFit (offset : Nat) (m : Nfa) : Prop :=
  ∀ tie ∈ m.ties,
    Raisable m.stateCount offset tie.source ∧ Raisable m.stateCount offset tie.target

/-- A number that can be raised is raised; any other one is refused as too large. -/
theorem raiseNumber_eq_ok {count offset s : Nat} (h : Raisable count offset s) :
    raiseNumber count offset s = .ok (s + offset) := by
  unfold raiseNumber
  split
  · rfl
  · rename_i hs
    exact addWords_eq_ok_iff.mpr ⟨rfl, h.resolve_left hs⟩

theorem raiseNumber_eq_error {count offset s : Nat} (h : ¬ Raisable count offset s) :
    raiseNumber count offset s = .error .sumTooLarge := by
  obtain ⟨hs, hsum⟩ := not_or.mp h
  unfold raiseNumber
  rw [if_neg hs, addWords, if_neg hsum]

/-- A tie is raised if both its numbers can be, -/
theorem shift_eq_ok {count offset : Nat} {t : Tie}
    (h : Raisable count offset t.source ∧ Raisable count offset t.target) :
    Tie.shift count offset t = .ok (raiseTie offset t) := by
  unfold Tie.shift
  rw [raiseNumber_eq_ok h.1, raiseNumber_eq_ok h.2]
  rfl

/-- and refused if one of them cannot, whichever it is. Both numbers are looked at in
turn, and the fault is the same for either. -/
theorem shift_eq_error {count offset : Nat} {t : Tie}
    (h : ¬ (Raisable count offset t.source ∧ Raisable count offset t.target)) :
    Tie.shift count offset t = .error .sumTooLarge := by
  rw [Tie.shift]
  by_cases hs : Raisable count offset t.source
  · rw [raiseNumber_eq_ok hs, raiseNumber_eq_error fun ht => h ⟨hs, ht⟩]
    rfl
  · rw [raiseNumber_eq_error hs]
    rfl

/-- The states, transitions and ties of `m` behind those of `n`. This is what `absorb`
leads to if it succeeds, without the checks that it makes; start and final states are
those of `n`. -/
def merge (n m : Nfa) (h : n.labels.firstShared? m.labels = none) : Nfa :=
  { n with
    labels := n.labels.append m.labels h
    alphabet := n.alphabet ∪ m.alphabet
    rows := n.rows ++ m.rows.map (·.mapValues (·.shift n.stateCount))
    ties := n.ties ++ m.ties.map (raiseTie n.stateCount) }

/-- The tables of two automata that share no label are put one behind the other, and their
alphabets are united. The start and the final states are those of the first. -/
theorem table_absorb_eq (h : n.labels.firstShared? m.labels = none) :
    n.toStateTable.absorb m.toStateTable = .ok { n.toStateTable with
      labels := n.labels.append m.labels h
      alphabet := n.alphabet ∪ m.alphabet } := by
  unfold StateTable.absorb
  split
  · rename_i label hlabel
    exact absurd (hlabel.symm.trans h) (Option.some_ne_none label)
  · rfl

/-- Automata that share no label are merged, if the ties of the second one can be raised.
The answer is where the second one starts. -/
theorem absorb_eq_ok (h : n.labels.firstShared? m.labels = none)
    (hties : TiesFit n.stateCount m) : n.absorb m = .ok (n.merge m h, n.stateCount) := by
  have hmap : m.ties.mapM (Tie.shift m.stateCount n.stateCount) =
      .ok (m.ties.map (raiseTie n.stateCount)) := by
    rw [Array.mapM_eq_mapM_toList,
      mapM_eq_ok fun t ht => shift_eq_ok (hties t (Array.mem_toList_iff.mp ht)),
      ← Array.toList_map]
    rfl
  rw [absorb, table_absorb_eq h, hmap]
  rfl

/-- If one tie cannot be raised the sum is too large, although no label is shared. The
labels are looked at first, so this fault says that they are apart. -/
theorem absorb_eq_error (h : n.labels.firstShared? m.labels = none)
    (hties : ¬ TiesFit n.stateCount m) : n.absorb m = .error .sumTooLarge := by
  -- the first tie that cannot be raised decides, and those before it are raised in vain
  have hmap : ∀ ts : List Tie, (¬ ∀ t ∈ ts, Raisable m.stateCount n.stateCount t.source ∧
      Raisable m.stateCount n.stateCount t.target) →
      ts.mapM (Tie.shift m.stateCount n.stateCount) = .error .sumTooLarge := by
    intro ts hts
    induction ts with
    | nil => exact absurd (fun _ ht => absurd ht List.not_mem_nil) hts
    | cons t ts ih =>
      rw [List.mapM_cons]
      by_cases ht : Raisable m.stateCount n.stateCount t.source ∧
          Raisable m.stateCount n.stateCount t.target
      · rw [shift_eq_ok ht, ih fun hall => hts (List.forall_mem_cons.mpr ⟨ht, hall⟩)]
        rfl
      · rw [shift_eq_error ht]
        rfl
  have hall : ¬ ∀ t ∈ m.ties.toList, Raisable m.stateCount n.stateCount t.source ∧
      Raisable m.stateCount n.stateCount t.target :=
    fun hall => hties fun t ht => hall t (Array.mem_toList_iff.mpr ht)
  rw [absorb, table_absorb_eq h, Array.mapM_eq_mapM_toList, hmap _ hall]
  rfl

/-- A shared label is refused before anything else is looked at, and the first one is
named. -/
theorem absorb_eq_error_of_shared {label : String}
    (h : n.labels.firstShared? m.labels = some label) :
    n.absorb m = .error (.labelInUse label) := by
  have htable : n.toStateTable.absorb m.toStateTable = .error (.labelInUse label) := by
    unfold StateTable.absorb
    split
    · rename_i label' hlabel
      rw [Option.some.inj (hlabel.symm.trans h)]
    · rename_i hnone
      exact nomatch hnone.symm.trans h
  rw [absorb, htable]
  rfl

section Merge

variable {h : n.labels.firstShared? m.labels = none}

@[simp] theorem toList_labels_merge :
    (n.merge m h).labels.toList = n.labels.toList ++ m.labels.toList :=
  Labels.toList_append (h := h)

@[simp] theorem stateCount_merge : (n.merge m h).stateCount = n.stateCount + m.stateCount :=
  Array.size_append ..

@[simp] theorem start_merge : (n.merge m h).start = n.start := rfl

@[simp] theorem finals_merge : (n.merge m h).finals = n.finals := rfl

@[simp] theorem alphabet_merge : (n.merge m h).alphabet = n.alphabet ∪ m.alphabet := rfl

@[simp] theorem ties_merge :
    (n.merge m h).ties = n.ties ++ m.ties.map (raiseTie n.stateCount) := rfl

theorem getD_rows_merge_of_lt (hs : s < n.rows.size) :
    (n.merge m h).rows.getD s ∅ = n.rows.getD s ∅ := by
  show (n.rows ++ _).getD s ∅ = _
  rw [Array.getD_eq_getD_getElem?, Array.getElem?_append_left hs, Array.getD_eq_getD_getElem?]

/-- The rows of the second automaton are behind those of the first, with all their targets
raised. -/
theorem getD_rows_merge_add (hn : n.rows.size = n.stateCount) :
    (n.merge m h).rows.getD (s + n.stateCount) ∅ =
      (m.rows.getD s ∅).mapValues (·.shift n.stateCount) := by
  show (n.rows ++ _).getD (s + n.stateCount) ∅ = _
  rw [Array.getD_eq_getD_getElem?, Array.getElem?_append_right (by omega), hn,
    Nat.add_sub_cancel, Array.getElem?_map, Array.getD_eq_getD_getElem?]
  cases m.rows[s]? <;> rfl

/-- A raised row leads to the raised targets and to nothing else. -/
theorem mem_rowTargets_mapValues {row : SortedMap Symbol (SortedSet Nat)} {offset : Nat} :
    y ∈ rowTargets (row.mapValues (·.shift offset)) a ↔
      ∃ t, t ∈ rowTargets row a ∧ y = t + offset := by
  rw [rowTargets, SortedMap.find?_mapValues, rowTargets]
  cases row.find? a with
  | none => simp
  | some targets => simp [eq_comm]

/-- The edges of the second automaton are raised by the number of states of the first. No
edge joins the two, so what is reached in the one is never left for the other. -/
theorem edge_merge (hn : n.Valid) :
    (n.merge m h).Edge x a y ↔
      n.Edge x a y ∨
        ∃ s t, m.Edge s a t ∧ x = s + n.stateCount ∧ y = t + n.stateCount := by
  rcases Nat.lt_or_ge x n.stateCount with hx | hx
  · -- a state of the first automaton
    rw [edge_iff, getD_rows_merge_of_lt (hn.size_rows ▸ hx)]
    constructor
    · exact .inl
    · rintro (he | ⟨s, t, -, rfl, -⟩)
      · exact he
      · omega
  · -- a state of the second one, which is a raised number
    obtain ⟨s, rfl⟩ := Nat.exists_eq_add_of_le' hx
    rw [edge_iff, getD_rows_merge_add hn.size_rows, mem_rowTargets_mapValues]
    constructor
    · rintro ⟨t, ht, rfl⟩
      exact .inr ⟨s, t, ht, rfl, rfl⟩
    · rintro (he | ⟨s', t, he, hs, rfl⟩)
      · exact absurd (hn.source_lt he) (by omega)
      · obtain rfl : s = s' := by omega
        exact ⟨t, he, rfl⟩

/-- Two automata that each fit together do so side by side. Every number of the second one
is raised by as many states as the first one has, in its edges as in its final states. -/
theorem Valid.merge (hn : n.Valid) (hm : m.Valid) : (n.merge m h).Valid where
  start_lt s hs := by
    have hlt := hn.start_lt s hs
    rw [stateCount_merge]
    omega
  finals_lt s hs := by
    have hlt := hn.finals_lt s hs
    rw [stateCount_merge]
    omega
  size_rows := by
    show (n.rows ++ m.rows.map _).size = _
    rw [Array.size_append, Array.size_map, hn.size_rows, hm.size_rows, stateCount_merge]
  edge_lt x a y hxy := by
    rw [stateCount_merge]
    rcases (edge_merge hn).mp hxy with he | ⟨s, t, he, rfl, rfl⟩
    · have hlt := hn.edge_lt x a y he
      omega
    · have hlt := hm.edge_lt s a t he
      omega
  edge_alphabet x c y hxy := by
    rw [alphabet_merge, SortedSet.mem_union]
    rcases (edge_merge hn).mp hxy with he | ⟨s, t, he, rfl, rfl⟩
    · exact .inl (hn.edge_alphabet x c y he)
    · exact .inr (hm.edge_alphabet s c t he)
  targets_ne x a := by
    -- a row of the first automaton is its own, and one of the second is raised
    rcases Nat.lt_or_ge x n.stateCount with hx | hx
    · rw [getD_rows_merge_of_lt (hn.size_rows ▸ hx)]
      exact hn.targets_ne x a
    · obtain ⟨s, rfl⟩ := Nat.exists_eq_add_of_le' hx
      rw [getD_rows_merge_add hn.size_rows, SortedMap.find?_mapValues]
      intro hempty
      obtain ⟨targets, htargets, hshift⟩ := Option.map_eq_some_iff.mp hempty
      refine hm.targets_ne s a (htargets.trans (congrArg some (SortedSet.ext fun t => ?_)))
      have hmem : t + n.stateCount ∈ targets.shift n.stateCount ↔ t ∈ targets := by simp
      rw [← hmem, hshift]
      simp

end Merge

/-- Automata are merged if they share no label and all ties can be raised, or not at all.
What the merged automaton is follows from the two alone, so the statement names it. -/
theorem absorb_eq_ok_iff {m' : Nfa} {offset : Nat} :
    n.absorb m = .ok (m', offset) ↔
      ∃ h : n.labels.firstShared? m.labels = none,
        TiesFit n.stateCount m ∧ n.merge m h = m' ∧ n.stateCount = offset := by
  constructor
  · -- each way to be refused is an error, so none of them was met
    intro habsorb
    have hshared : n.labels.firstShared? m.labels = none := by
      cases hshared : n.labels.firstShared? m.labels with
      | none => rfl
      | some label =>
        rw [absorb_eq_error_of_shared hshared] at habsorb
        exact nomatch habsorb
    by_cases hties : TiesFit n.stateCount m
    · rw [absorb_eq_ok hshared hties] at habsorb
      exact ⟨hshared, hties, Prod.mk.inj (Except.ok.inj habsorb)⟩
    · rw [absorb_eq_error hshared hties] at habsorb
      exact nomatch habsorb
  · intro ⟨hshared, hties, hmerge, hoffset⟩
    rw [absorb_eq_ok hshared hties, hmerge, hoffset]

theorem Valid.absorb {m' : Nfa} {offset : Nat} (hn : n.Valid) (hm : m.Valid)
    (h : n.absorb m = .ok (m', offset)) : m'.Valid := by
  obtain ⟨hshared, -, rfl, -⟩ := absorb_eq_ok_iff.mp h
  exact hn.merge hm

end Nfa

end PatternAutomata
