import PatternAutomata.Automaton.OfElements
import PatternAutomata.Proofs.Automaton.Deterministic

/-!
# Pattern automata — the states of a search

A search becomes a deterministic automaton whose state `i` is the element at
place `i`, provided that the labels of its elements are distinct (`Proper`). Where
elements are sets and a letter leads from a set to a set, with only the empty one
left out, a run of the automaton is the same as going from set to set.

## Results

* `ofElements_eq_ok`      — the automaton is made, and what it is (`IsSearch`).
* `IsSearch.afterWord_eq` — after a word it is at the place of the set after the word.
* `exists_setAutomaton`   — it accepts a word if the set after the word is final.
-/

namespace PatternAutomata

namespace Dfa

-- ---------------------------------------------------------------------------
-- Many transitions
-- ---------------------------------------------------------------------------

/-- One transition after the other. With two on one letter of a state, the last one
counts. -/
def linkAll (d : Dfa) (edges : List (Nat × Char × Nat)) : Dfa :=
  edges.foldl (fun d e => d.link e.1 e.2.1 e.2.2) d

section LinkAll

variable {d : Dfa} {edges : List (Nat × Char × Nat)} {s t : Nat} {c : Char}

theorem linkAll_append {more : List (Nat × Char × Nat)} :
    (d.linkAll edges).linkAll more = d.linkAll (edges ++ more) := List.foldl_append.symm

/-- Transitions are none of what labels are about. Only rows and letters change. -/
@[simp] theorem labels_linkAll : (d.linkAll edges).labels = d.labels := by
  induction edges generalizing d with
  | nil => rfl
  | cons e edges ih => exact ih (d := d.link e.1 e.2.1 e.2.2)

@[simp] theorem start_linkAll : (d.linkAll edges).start = d.start := by
  induction edges generalizing d with
  | nil => rfl
  | cons e edges ih => exact ih (d := d.link e.1 e.2.1 e.2.2)

@[simp] theorem finals_linkAll : (d.linkAll edges).finals = d.finals := by
  induction edges generalizing d with
  | nil => rfl
  | cons e edges ih => exact ih (d := d.link e.1 e.2.1 e.2.2)

@[simp] theorem size_rows_linkAll : (d.linkAll edges).rows.size = d.rows.size := by
  induction edges generalizing d with
  | nil => rfl
  | cons e edges ih => exact (ih (d := d.link e.1 e.2.1 e.2.2)).trans Array.size_setIfInBounds

/-- The letters are those before, and those of the transitions. A letter that is read by
no transition stays if it was there. -/
theorem mem_alphabet_linkAll :
    c ∈ (d.linkAll edges).alphabet ↔ c ∈ d.alphabet ∨ ∃ e ∈ edges, e.2.1 = c := by
  induction edges generalizing d with
  | nil => simp [linkAll]
  | cons e edges ih =>
    show c ∈ ((d.link e.1 e.2.1 e.2.2).linkAll edges).alphabet ↔ _
    rw [ih]
    show c ∈ d.alphabet.insert e.2.1 ∨ _ ↔ _
    simp only [SortedSet.mem_insert, List.mem_cons, exists_eq_or_imp, eq_comm (a := c)]
    rw [or_assoc, or_left_comm]

/-- Transitions between states that exist keep the parts together. -/
theorem Valid.linkAll (hd : d.Valid)
    (h : ∀ e ∈ edges, e.1 < d.stateCount ∧ e.2.2 < d.stateCount) : (d.linkAll edges).Valid := by
  induction edges generalizing d with
  | nil => exact hd
  | cons e edges ih =>
    obtain ⟨hs, ht⟩ := h e List.mem_cons_self
    exact ih (hd.link hs ht) fun e' he' => h e' (List.mem_cons_of_mem _ he')

/-- Edges that agree on where a letter leads are what the automaton follows. Without
agreement the last one would have taken the place of the others. `before` is what the
automaton followed at first, and grows with the induction. -/
theorem nextOf_linkAll {before : List (Nat × Char × Nat)}
    (hbefore : ∀ s c t, d.nextOf (some s) c = some t ↔ (s, c, t) ∈ before)
    (hsource : ∀ e ∈ edges, e.1 < d.rows.size)
    (hfunctional : ∀ s c t t', (s, c, t) ∈ before ++ edges → (s, c, t') ∈ before ++ edges →
      t = t') :
    (d.linkAll edges).nextOf (some s) c = some t ↔ (s, c, t) ∈ before ++ edges := by
  induction edges generalizing d before with
  | nil =>
    rw [List.append_nil]
    exact hbefore s c t
  | cons e edges ih =>
    obtain ⟨x, a, y⟩ := e
    have hx : x < d.rows.size := hsource _ List.mem_cons_self
    have hassoc : before ++ (x, a, y) :: edges = before ++ [(x, a, y)] ++ edges := by simp
    rw [hassoc] at hfunctional ⊢
    refine ih (d := d.link x a y) (fun s c t => ?_) (fun e he => ?_) hfunctional
    · rw [nextOf_link hx, List.mem_append, List.mem_singleton, ← hbefore]
      -- the transition that is added now takes the place of one before, which is the same
      -- one
      by_cases hkey : s = x ∧ c = a
      · obtain ⟨rfl, rfl⟩ := hkey
        rw [if_pos ⟨rfl, rfl⟩, hbefore]
        constructor
        · intro h
          exact .inr (by rw [Option.some.inj h])
        · rintro (h | h)
          · exact congrArg some (hfunctional s c y t (by simp) (by simp [h]))
          · cases h
            rfl
      · rw [if_neg hkey]
        refine (or_iff_left fun h => hkey ?_).symm
        cases h
        exact ⟨rfl, rfl⟩
    · show e.1 < (d.rows.setIfInBounds _ _).size
      rw [Array.size_setIfInBounds]
      exact hsource e (List.mem_cons_of_mem _ he)

/-- A loop that adds transitions at every step adds all of them. What is known of one step
is known whatever was added before it, as later steps find rows that are changed already. -/
theorem foldlM_linkAll {β : Type} {g : Dfa → β → Except Fault Dfa} {l : List β}
    (es : β → List (Nat × Char × Nat))
    (h : ∀ es', ∀ x ∈ l, g (d.linkAll es') x = .ok ((d.linkAll es').linkAll (es x))) :
    l.foldlM g d = .ok (d.linkAll (l.flatMap es)) := by
  -- stated for any list of transitions that is there already, so that the induction goes
  -- through
  have hrun : ∀ es', l.foldlM g (d.linkAll es') =
      .ok ((d.linkAll es').linkAll (l.flatMap es)) := by
    induction l with
    | nil => exact fun es' => rfl
    | cons x l ih =>
      intro es'
      rw [List.foldlM_cons, h es' x List.mem_cons_self, ok_bind, linkAll_append,
        ih fun es' y hy => h es' y (List.mem_cons_of_mem _ hy)]
      simp only [linkAll_append, List.flatMap_cons, List.append_assoc]
  exact hrun []

end LinkAll

section Elements

variable {α : Type} {naming : StateNaming α} {name : α → String}
  {moves : α → List (Char × α)} {alphabet : SortedSet Char} {xs : List α} {d : Dfa} {x y : α}
  {i j : Nat} {c : Char}

/-- The elements of a search with their moves, none of which leads outside. The labels
tell them apart, and no element has two moves on one letter: so elements can be states,
and their moves transitions. -/
structure Proper (naming : StateNaming α) (name : α → String) (moves : α → List (Char × α))
    (alphabet : SortedSet Char) (xs : List α) : Prop where
  ne_nil : xs ≠ []
  nodup : xs.Nodup
  label : ∀ x ∈ xs, naming.label x = .ok (name x)
  name_inj : ∀ x ∈ xs, ∀ y ∈ xs, name x = name y → x = y
  target_mem : ∀ x ∈ xs, ∀ m ∈ moves x, m.2 ∈ xs
  letter_mem : ∀ x ∈ xs, ∀ m ∈ moves x, m.1 ∈ alphabet
  functional : ∀ x ∈ xs, ∀ c y y', (c, y) ∈ moves x → (c, y') ∈ moves x → y = y'

-- ---------------------------------------------------------------------------
-- The states
-- ---------------------------------------------------------------------------

/-- An automaton without transitions whose states are the elements of a list. The first
pass of the construction makes all states, before any transition is added. -/
structure HoldsElements (naming : StateNaming α) (name : α → String) (alphabet : SortedSet Char)
    (xs : List α) (d : Dfa) : Prop where
  valid : d.Valid
  labels : d.labels.toList = xs.map name
  start : d.start = none
  mem_finals : ∀ i, i ∈ d.finals ↔ ∃ x, xs[i]? = some x ∧ naming.isFinal x = true
  nextOf : ∀ s c, d.nextOf (some s) c = none
  alphabet : d.alphabet = alphabet

/-- Before the first element there is the alphabet and nothing else. From here on elements
are added one at a time. -/
theorem holdsElements_nil :
    HoldsElements naming name alphabet [] { alphabet := alphabet } where
  valid := valid_empty alphabet
  labels := rfl
  start := rfl
  mem_finals i := by simp
  nextOf s c := nextOf_eq_none_of_size_le (Nat.zero_le s)
  alphabet := rfl

/-- An element of a new label is one more state, which is final if the element is. That
the label is new is the only premise: a label in use would answer a state that is there
already. -/
theorem HoldsElements.push (h : HoldsElements naming name alphabet xs d)
    (hlabel : naming.label x = .ok (name x)) (hnew : name x ∉ xs.map name) :
    ∃ d', addElement naming d x = .ok d' ∧
      HoldsElements naming name alphabet (xs ++ [x]) d' := by
  have hfind : d.find? (name x) = none := StateTable.find?_eq_none_iff.mpr (h.labels.symm ▸ hnew)
  have hcount : d.stateCount = xs.length := by
    rw [StateTable.stateCount_eq h.labels, List.length_map]
  let more := d.withState (name x) hfind
  have hmore : more.stateCount = xs.length + 1 := by rw [← hcount]; exact stateCount_withState
  have hlast : d.stateCount < more.stateCount := by omega
  let finals := if naming.isFinal x = true then d.finals.insert xs.length else d.finals
  -- the two cases are those of the construction: only the final states differ
  have hrun : addElement naming d x = .ok (more.withFinals finals) := by
    unfold addElement
    rw [hlabel, ok_bind, addState_of_find?_eq_none hfind]
    by_cases hfinal : naming.isFinal x = true
    · simp only [finals, if_pos hfinal]
      rw [addFinal_eq hlast, hcount]
      rfl
    · simp only [finals, if_neg hfinal]
      rfl
  have hfinals := mem_insert_last_iff (a := x) h.mem_finals
  refine ⟨more.withFinals finals, hrun, {
    valid := h.valid.withState.withFinals fun i hi => ?_
    labels := by
      show more.labels.toList = _
      simp [more, h.labels]
    start := h.start
    mem_finals := hfinals
    nextOf := fun s c => (nextOf_withState (h := hfind)).trans (h.nextOf s c)
    alphabet := h.alphabet }⟩
  obtain ⟨y, hy, -⟩ := (hfinals i).mp hi
  have hlt := (List.getElem?_eq_some_iff.mp hy).1
  rw [List.length_append, List.length_singleton, ← hmore] at hlt
  exact hlt

/-- The states of the first elements, or of all of them, the start not set yet. Each
element makes a state, as its label was not met before. -/
theorem Proper.exists_holdsElements {ys : List α} (h : Proper naming name moves alphabet xs)
    (hys : ys <+: xs) :
    ∃ d, ys.foldlM (addElement naming) { alphabet := alphabet } = .ok d ∧
      HoldsElements naming name alphabet ys d := by
  obtain ⟨more, rfl⟩ := hys
  have hstep : ∀ done x rest d, ys = done ++ x :: rest →
      HoldsElements naming name alphabet done d →
      ∃ d', addElement naming d x = .ok d' ∧
        HoldsElements naming name alphabet (done ++ [x]) d' := by
    intro done x rest d hdone hd
    have hxs : ys ++ more = done ++ x :: (rest ++ more) := by
      rw [hdone, List.append_assoc, List.cons_append]
    exact hd.push (h.label x (by simp [hxs]))
      (not_mem_map_of_eq_append_cons h.nodup h.name_inj hxs)
  exact exists_foldlM_eq_ok hstep holdsElements_nil

-- ---------------------------------------------------------------------------
-- The transitions
-- ---------------------------------------------------------------------------

variable [DecidableEq α]

/-- The transitions of the moves of all elements, each between the places of its
elements. -/
def searchEdges (moves : α → List (Char × α)) (xs : List α) : List (Nat × Char × Nat) :=
  xs.flatMap fun x => (moves x).map fun m => (xs.idxOf x, m.1, xs.idxOf m.2)

/-- A transition of the search is a move of the element at the one place to that at the
other. Places and elements tell each other, as nothing is listed twice. -/
theorem mem_searchEdges (h : Proper naming name moves alphabet xs) :
    (i, c, j) ∈ searchEdges moves xs ↔
      ∃ x y, xs[i]? = some x ∧ xs[j]? = some y ∧ (c, y) ∈ moves x := by
  unfold searchEdges
  rw [List.mem_flatMap]
  constructor
  · rintro ⟨x, hx, hmove⟩
    obtain ⟨⟨e, y⟩, hm, hedge⟩ := List.mem_map.mp hmove
    obtain ⟨rfl, rfl, rfl⟩ : i = xs.idxOf x ∧ c = e ∧ j = xs.idxOf y := by
      simpa [eq_comm] using hedge
    exact ⟨x, y, (getElem?_eq_some_iff_idxOf h.nodup hx).mpr rfl,
      (getElem?_eq_some_iff_idxOf h.nodup (h.target_mem x hx _ hm)).mpr rfl, hm⟩
  · -- the places that are given are the first places of their elements
    rintro ⟨x, y, hx, hy, hm⟩
    have hx' := List.mem_of_getElem? hx
    refine ⟨x, hx', List.mem_map.mpr ⟨(c, y), hm, ?_⟩⟩
    rw [← (getElem?_eq_some_iff_idxOf h.nodup hx').mp hx,
      ← (getElem?_eq_some_iff_idxOf h.nodup (List.mem_of_getElem? hy)).mp hy]

/-- Elements move in one way at most, and so there are no two transitions on one letter:
none of them takes the place of another. -/
theorem searchEdges_functional {j' : Nat} (h : Proper naming name moves alphabet xs)
    (hj : (i, c, j) ∈ searchEdges moves xs) (hj' : (i, c, j') ∈ searchEdges moves xs) : j = j' := by
  obtain ⟨x, y, hx, hy, hm⟩ := (mem_searchEdges h).mp hj
  obtain ⟨x', y', hx', hy', hm'⟩ := (mem_searchEdges h).mp hj'
  obtain rfl := Option.some.inj (hx.symm.trans hx')
  obtain rfl := h.functional x (List.mem_of_getElem? hx) c y y' hm hm'
  have hmem := List.mem_of_getElem? hy
  exact ((getElem?_eq_some_iff_idxOf h.nodup hmem).mp hy).trans
    ((getElem?_eq_some_iff_idxOf h.nodup hmem).mp hy').symm

theorem mem_alphabet_of_searchEdges (h : Proper naming name moves alphabet xs)
    (he : (i, c, j) ∈ searchEdges moves xs) : c ∈ alphabet := by
  obtain ⟨x, y, hx, -, hm⟩ := (mem_searchEdges h).mp he
  exact h.letter_mem x (List.mem_of_getElem? hx) _ hm

/-- The automaton of a search. State `i` is the element at place `i`, the first one is the
start, and transitions are moves. Everything that can be asked of the automaton follows
from this. -/
structure IsSearch (naming : StateNaming α) (name : α → String) (moves : α → List (Char × α))
    (alphabet : SortedSet Char) (xs : List α) (d : Dfa) : Prop where
  valid : d.Valid
  labels : d.labels.toList = xs.map name
  start : d.start = some 0
  mem_finals : ∀ i, i ∈ d.finals ↔ ∃ x, xs[i]? = some x ∧ naming.isFinal x = true
  nextOf : ∀ i c j, d.nextOf (some i) c = some j ↔
    ∃ x y, xs[i]? = some x ∧ xs[j]? = some y ∧ (c, y) ∈ moves x
  mem_alphabet : ∀ c, c ∈ d.alphabet ↔ c ∈ alphabet

section States

omit [DecidableEq α]

variable (h : IsSearch naming name moves alphabet xs d) (hx : xs[i]? = some x)

include h hx

/-- The state of an element has its name. -/
theorem IsSearch.label_eq : d.label i = .ok (name x) := by
  rw [StateTable.label_eq_ok_iff, ← Labels.getElem?_toList, h.labels, List.getElem?_map, hx]
  rfl

/-- It is final if the element is. -/
theorem IsSearch.isFinal_iff : d.isFinal i = true ↔ naming.isFinal x = true := by
  rw [StateTable.isFinal, decide_eq_true_iff, h.mem_finals]
  constructor
  · rintro ⟨y, hy, hfinal⟩
    rwa [Option.some.inj (hx.symm.trans hy)]
  · exact fun hfinal => ⟨x, hx, hfinal⟩

end States

section Made

variable (h : Proper naming name moves alphabet xs)
  (hs : HoldsElements naming name alphabet xs d)

include h hs

/-- When all states are there, adding the one of an element again answers it and changes
nothing. -/
theorem HoldsElements.addState_eq {d' : Dfa} (hd : d'.labels = d.labels) (hx : x ∈ xs) :
    d'.addState (name x) = (d', xs.idxOf x) := by
  refine addState_of_find?_eq_some (StateTable.find?_eq_some_iff.mpr ?_)
  rw [hd, hs.labels, List.getElem?_map, (getElem?_eq_some_iff_idxOf h.nodup hx).mpr rfl]
  rfl

omit h in
theorem HoldsElements.idxOf_lt (hx : x ∈ xs) : xs.idxOf x < d.stateCount := by
  rw [StateTable.stateCount_eq hs.labels, List.length_map]
  exact List.idxOf_lt_length_of_mem hx

/-- The transitions are between the states of the elements, so none of them is refused. -/
theorem HoldsElements.searchEdges_lt :
    ∀ e ∈ searchEdges moves xs, e.1 < d.stateCount ∧ e.2.2 < d.stateCount := by
  intro ⟨i, c, j⟩ he
  obtain ⟨x, y, hx, hy, -⟩ := (mem_searchEdges h).mp he
  have hx' := List.mem_of_getElem? hx
  have hy' := List.mem_of_getElem? hy
  rw [(getElem?_eq_some_iff_idxOf h.nodup hx').mp hx,
    (getElem?_eq_some_iff_idxOf h.nodup hy').mp hy]
  exact ⟨hs.idxOf_lt hx', hs.idxOf_lt hy'⟩

/-- The transitions of all moves are added to the states. The labels of both ends are
looked up again for each move, and found. -/
theorem HoldsElements.foldlM_addMoves {d' : Dfa} (hd : d'.labels = d.labels)
    (hrows : d'.rows = d.rows) :
    xs.foldlM (fun d x => addMoves naming d (x, moves x)) d' =
      .ok (d'.linkAll (searchEdges moves xs)) := by
  have hlt : ∀ x ∈ xs, ∀ es, xs.idxOf x < (d'.linkAll es).rows.size := by
    intro x hx es
    rw [size_rows_linkAll, hrows, hs.valid.size_rows]
    exact hs.idxOf_lt hx
  refine foldlM_linkAll _ fun es x hx => ?_
  unfold addMoves
  rw [h.label x hx, ok_bind]
  -- the moves of one element, within the fold over all elements
  refine (foldlM_linkAll (fun m => [(xs.idxOf x, m.1, xs.idxOf m.2)]) fun es' m hm => ?_).trans ?_
  · have htarget := h.target_mem x hx m hm
    have hlabels : ((d'.linkAll es).linkAll es').labels = d.labels := by
      rw [labels_linkAll, labels_linkAll, hd]
    unfold linkElements
    rw [hs.addState_eq h hlabels hx, h.label _ htarget]
    dsimp only
    rw [ok_bind, hs.addState_eq h hlabels htarget, linkAll_append]
    exact addTransition_eq (hlt x hx _) (hlt _ htarget _)
  · rw [← List.map_eq_flatMap]

end Made

/-- The automaton of a search is made, and its states are the elements. First come the
states, then the start, which is the state of the first element, and then the
transitions. -/
theorem ofElements_eq_ok (h : Proper naming name moves alphabet xs) :
    ∃ d, ofElements alphabet naming (xs.map fun x => (x, moves x)) = .ok d ∧
      IsSearch naming name moves alphabet xs d := by
  obtain ⟨states, hstates, hs⟩ := h.exists_holdsElements List.prefix_rfl
  obtain ⟨x₀, rest, rfl⟩ := List.exists_cons_of_ne_nil h.ne_nil
  have hfirst : (x₀ :: rest).idxOf x₀ = 0 := by simp
  have hzero : 0 < states.stateCount := hfirst ▸ hs.idxOf_lt List.mem_cons_self
  let started := states.withStart 0
  have hvalid : started.Valid := hs.valid.withStart hzero
  have hlt := hs.searchEdges_lt h
  have hrange : ∀ e ∈ searchEdges moves (x₀ :: rest), e.1 < started.stateCount ∧
      e.2.2 < started.stateCount := hlt
  refine ⟨started.linkAll (searchEdges moves (x₀ :: rest)), ?_, {
    valid := hvalid.linkAll hrange
    labels := labels_linkAll.symm ▸ hs.labels
    start := start_linkAll
    mem_finals := fun i => finals_linkAll.symm ▸ hs.mem_finals i
    nextOf := fun i c j => ?_
    mem_alphabet := fun c => ?_ }⟩
  · -- no step of the construction fails
    unfold ofElements
    rw [List.foldlM_map, hstates, ok_bind, List.map_cons]
    dsimp only
    rw [h.label x₀ List.mem_cons_self, ok_bind, hs.addState_eq h rfl List.mem_cons_self, hfirst,
      setStart_eq hzero, ok_bind, ← List.map_cons (f := fun x => (x, moves x)), List.foldlM_map]
    exact hs.foldlM_addMoves h rfl rfl
  · -- before the transitions are added, nothing leads anywhere
    have hbefore : ∀ s c t, started.nextOf (some s) c = some t ↔ (s, c, t) ∈ [] := by
      intro s c t
      refine ⟨fun ht => ?_, fun ht => absurd ht List.not_mem_nil⟩
      exact nomatch (hs.nextOf s c).symm.trans ht
    rw [nextOf_linkAll hbefore fun e he => hvalid.size_rows.symm ▸ (hrange e he).1]
    · rw [List.nil_append, mem_searchEdges h]
    · exact fun s c t t' => searchEdges_functional h
  · rw [mem_alphabet_linkAll]
    show c ∈ states.alphabet ∨ _ ↔ _
    rw [hs.alphabet]
    refine or_iff_left_of_imp ?_
    rintro ⟨e, he, rfl⟩
    exact mem_alphabet_of_searchEdges h he

end Elements

-- ---------------------------------------------------------------------------
-- Searches for sets
-- ---------------------------------------------------------------------------

/-- The sets that some letters lead to, the empty one left out. -/
def setMoves (letters : List Char) (next : SortedSet Nat → Char → SortedSet Nat)
    (set : SortedSet Nat) : List (Char × SortedSet Nat) :=
  (letters.map fun c => (c, next set c)).filter (!·.2.isEmpty)

section Sets

variable {naming : StateNaming (SortedSet Nat)} {name : SortedSet Nat → String}
  {letters : List Char} {next : SortedSet Nat → Char → SortedSet Nat} {alphabet : SortedSet Char}
  {d : Dfa} {set first : SortedSet Nat} {i : Nat} {c : Char} {w : List Char}
  {fin : FiniteRange fun set => (setMoves letters next set).map (·.2)}

/-- A move to a set: on one of the letters, and not to the empty set, which stands for
being nowhere and gets no state. -/
theorem mem_setMoves {target : SortedSet Nat} :
    (c, target) ∈ setMoves letters next set ↔
      c ∈ letters ∧ target = next set c ∧ target ≠ ∅ := by
  -- a set that is empty by its list has no members
  have hempty : target.isEmpty = true ↔ target = ∅ := by
    rw [SortedSet.isEmpty_iff]
    constructor
    · exact fun h => SortedSet.ext fun a => by simp [h a]
    · rintro rfl a
      exact SortedSet.not_mem_empty
  unfold setMoves
  rw [List.mem_filter, List.mem_map, Bool.not_eq_true', ← Bool.not_eq_true, hempty]
  constructor
  · rintro ⟨⟨e, he, hmove⟩, hne⟩
    cases hmove
    exact ⟨he, rfl, hne⟩
  · rintro ⟨hc, rfl, hne⟩
    exact ⟨⟨c, hc, rfl⟩, hne⟩

/-- Some word leads to every set that is found, by induction on how it was reached. This
is what gives a set its meaning: what is known of it is known of a word. -/
theorem exists_word_of_mem_explore (h : set ∈ explore _ fin [first]) :
    ∃ w : List Char, w.foldl next first = set := by
  obtain ⟨x, hx, hreach⟩ := mem_explore_iff.mp h
  obtain rfl := List.mem_singleton.mp hx
  clear h
  induction hreach with
  | refl => exact ⟨[], rfl⟩
  | step _ hz ih =>
    obtain ⟨w, rfl⟩ := ih
    obtain ⟨⟨c, target⟩, hm, rfl⟩ := List.mem_map.mp hz
    obtain ⟨-, rfl, -⟩ := mem_setMoves.mp hm
    exact ⟨w ++ [c], by rw [List.foldl_append]; rfl⟩

/-- Only the first set can be empty, as no move leads to the empty set. So a set that is
reached has a member to look at. -/
theorem ne_empty_of_mem_explore (hfirst : first ≠ ∅) (h : set ∈ explore _ fin [first]) :
    set ≠ ∅ := by
  obtain ⟨x, hx, hreach⟩ := mem_explore_iff.mp h
  obtain rfl := List.mem_singleton.mp hx
  cases hreach with
  | refl => exact hfirst
  | step _ hmove =>
    obtain ⟨⟨c, target⟩, hm, rfl⟩ := List.mem_map.mp hmove
    exact (mem_setMoves.mp hm).2.2

theorem getElem?_zero_explore : (explore _ fin [first])[0]? = some first := by
  obtain ⟨rest, hrest⟩ : [first] <+: explore _ fin [first] := start_prefix_explore (by simp)
  rw [← hrest]
  rfl

/-- How letters lead from set to set: from the empty set to itself, and letters that are not
among `letters` to the empty set. -/
structure LeadsBy (letters : List Char) (next : SortedSet Nat → Char → SortedSet Nat) : Prop where
  next_empty : ∀ c, next ∅ c = ∅
  next_other : ∀ x c, c ∉ letters → next x c = ∅

theorem LeadsBy.foldl_empty (h : LeadsBy letters next) (w : List Char) : w.foldl next ∅ = ∅ := by
  induction w with
  | nil => rfl
  | cons c w ih => rw [List.foldl_cons, h.next_empty, ih]

/-- Every set that a word leads to is found, unless it is empty. On the way to it no set
is empty, and so all letters of the word are tried. -/
theorem LeadsBy.foldl_mem_explore (h : LeadsBy letters next) (hset : set ∈ explore _ fin [first])
    (hne : w.foldl next set ≠ ∅) : w.foldl next set ∈ explore _ fin [first] := by
  induction w generalizing set with
  | nil => exact hset
  | cons c w ih =>
    have hnext : next set c ≠ ∅ := by
      intro hempty
      rw [List.foldl_cons, hempty, h.foldl_empty] at hne
      exact hne rfl
    have hc : c ∈ letters := Decidable.byContradiction fun hc => hnext (h.next_other _ c hc)
    obtain ⟨x, hx, hreach⟩ := mem_explore_iff.mp hset
    exact ih (mem_explore_iff.mpr ⟨x, hx, .step hreach
      (List.mem_map_of_mem (mem_setMoves.mpr ⟨hc, rfl, hnext⟩))⟩) hne

/-- How the sets of a search are labelled, and which of them are final. The empty set has
no state, so it must not be final. -/
structure TellsApart (naming : StateNaming (SortedSet Nat)) (name : SortedSet Nat → String)
    (xs : List (SortedSet Nat)) : Prop where
  label : ∀ x ∈ xs, naming.label x = .ok (name x)
  name_inj : ∀ x ∈ xs, ∀ y ∈ xs, name x = name y → x = y
  isFinal_empty : naming.isFinal ∅ = false

/-- The sets that are found make states of their own. Where a letter leads is a function
here, so sets move in one way at most. -/
theorem TellsApart.proper (h : TellsApart naming name (explore _ fin [first]))
    (hletters : ∀ c ∈ letters, c ∈ alphabet) :
    Proper naming name (setMoves letters next) alphabet (explore _ fin [first]) where
  ne_nil := List.ne_nil_of_mem (List.mem_of_getElem? getElem?_zero_explore)
  nodup := nodup_explore
  label := h.label
  name_inj := h.name_inj
  target_mem x hx m hm := by
    obtain ⟨y, hy, hreach⟩ := mem_explore_iff.mp hx
    exact mem_explore_iff.mpr ⟨y, hy, .step hreach (List.mem_map_of_mem hm)⟩
  letter_mem x _ m hm := hletters _ (mem_setMoves.mp hm).1
  functional x _ c y y' hy hy' := (mem_setMoves.mp hy).2.1.trans (mem_setMoves.mp hy').2.1.symm

/-- After a word the automaton is at the place of the set after the word, or nowhere if
that is empty. The induction is on the word, from any state. Once the automaton has no
state, it has none to the end, and the set stays empty. -/
theorem IsSearch.afterWord_eq {xs : List (SortedSet Nat)}
    (hproper : Proper naming name (setMoves letters next) alphabet xs)
    (hleads : LeadsBy letters next)
    (h : IsSearch naming name (setMoves letters next) alphabet xs d) (hi : xs[i]? = some set) :
    match d.afterWord (some i) w with
    | some j => xs[j]? = some (w.foldl next set)
    | none => w.foldl next set = ∅ := by
  induction w generalizing i set with
  | nil => exact hi
  | cons c w ih =>
    show match d.afterWord (d.nextOf (some i) c) w with | some j => _ | none => _
    cases hnext : d.nextOf (some i) c with
    | some j =>
      obtain ⟨x, y, hx, hy, hm⟩ := (h.nextOf i c j).mp hnext
      obtain rfl := Option.some.inj (hi.symm.trans hx)
      obtain ⟨-, rfl, -⟩ := mem_setMoves.mp hm
      exact ih hy
    | none =>
      rw [afterWord_none, List.foldl_cons]
      -- a next set that is not empty would have a state, and a transition would lead
      -- there
      have hempty : next set c = ∅ := by
        refine Decidable.byContradiction fun hne => ?_
        have hc : c ∈ letters :=
          Decidable.byContradiction fun hc => hne (hleads.next_other set c hc)
        have hm : (c, next set c) ∈ setMoves letters next set := mem_setMoves.mpr ⟨hc, rfl, hne⟩
        obtain ⟨j, hj⟩ := List.getElem?_of_mem
          (hproper.target_mem set (List.mem_of_getElem? hi) _ hm)
        exact nomatch hnext.symm.trans ((h.nextOf i c j).mpr ⟨_, _, hi, hj, hm⟩)
      rw [hempty]
      exact hleads.foldl_empty w

/-- A word is accepted if the set after the word is final. If that is empty, there is no
state, and the empty set is not final. -/
theorem IsSearch.accepts_eq (hnaming : TellsApart naming name (explore _ fin [first]))
    (hletters : ∀ c ∈ letters, c ∈ alphabet) (hleads : LeadsBy letters next)
    (h : IsSearch naming name (setMoves letters next) alphabet (explore _ fin [first]) d)
    (word : String) :
    d.accepts word = .ok (naming.isFinal (word.toList.foldl next first)) := by
  have hafter := h.afterWord_eq (hnaming.proper hletters) hleads getElem?_zero_explore
    (w := word.toList)
  rw [Dfa.accepts_eq h.valid, h.start]
  -- the run has left the automaton exactly where the set is empty
  cases hend : d.afterWord (some 0) word.toList with
  | none =>
    rw [hend] at hafter
    dsimp only at hafter
    rw [hafter, hnaming.isFinal_empty]
    rfl
  | some j =>
    rw [hend] at hafter
    exact congrArg Except.ok (Bool.eq_iff_iff.mpr (h.isFinal_iff hafter))

/-- The automaton of a search for sets is made, and a word leads it from set to set. Both
constructions of deterministic automata are cases of this. -/
theorem exists_setAutomaton (hnaming : TellsApart naming name (explore _ fin [first]))
    (hletters : ∀ c ∈ letters, c ∈ alphabet) (hleads : LeadsBy letters next) :
    ∃ d, ofElements alphabet naming
        ((explore _ fin [first]).map fun set => (set, setMoves letters next set)) = .ok d ∧
      IsSearch naming name (setMoves letters next) alphabet (explore _ fin [first]) d ∧
      ∀ word, d.accepts word = .ok (naming.isFinal (word.toList.foldl next first)) := by
  obtain ⟨d, hd, hsearch⟩ := ofElements_eq_ok (hnaming.proper hletters)
  exact ⟨d, hd, hsearch, hsearch.accepts_eq hnaming hletters hleads⟩

end Sets

end Dfa

end PatternAutomata
