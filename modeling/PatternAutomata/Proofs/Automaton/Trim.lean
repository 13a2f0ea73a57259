import PatternAutomata.Proofs.Automaton.OfElements
import PatternAutomata.Proofs.Automaton.Simulation

/-!
# Pattern automata — automata without useless states

A state is useful if some accepted word passes through it: the state is reached
from the start, and a final state is reached from there. In an automaton with
useful states only, running out of states is the same as having read what no
accepted word begins with (`Begins`), so a word need not be read to its end to
know that it is rejected.

For the automaton of a search, the states are reached by construction, so all
that has to be known is that its elements are not dead.

## Results

* `Nfa.Useful.afterWord_ne_empty_iff` — states are held as long as an accepted word begins so.
* `Dfa.StopsInTime.trim`     — an automaton that stops in time has useful states only.
* `Dfa.IsSearch.stopsInTime` — a search for sets that lead on makes such an automaton.
-/

namespace PatternAutomata

/-- Some word of the language begins with `w`. -/
def Begins (L : List Char → Prop) (w : List Char) : Prop := ∃ v, L (w ++ v)

/-- Every state is on the way of an accepted word: some word leads to it, and from there
another one leads to a final state. -/
structure Nfa.Useful (n : Nfa) : Prop where
  reachable : ∀ x < n.stateCount, ∃ u, n.LeadsTo u x
  productive : ∀ x < n.stateCount, ∃ y ∈ n.finals, ∃ v, n.Path x v y

/-- Every state is on the way of an accepted word, and every symbol is on a transition, so
nothing could be left out. -/
structure Nfa.Trim (n : Nfa) : Prop extends n.Useful where
  symbol_used : ∀ c ∈ n.alphabet, ∃ x y, (x, .char c, y) ∈ n.transitions

/-- Every state is on the way of an accepted word, and every symbol is on a transition. A
deterministic automaton is said so by its runs. -/
structure Dfa.Trim (d : Dfa) : Prop where
  reachable : ∀ x < d.stateCount, ∃ u, d.run d.start u = .ok (some x)
  productive : ∀ x < d.stateCount, ∃ y ∈ d.finals, ∃ v, d.run (some x) v = .ok (some y)
  symbol_used : ∀ c ∈ d.alphabet, ∃ x y, (x, c, y) ∈ d.transitions

variable {L : List Char → Prop} {w : List Char} {c : Char}

-- ---------------------------------------------------------------------------
-- Nondeterministic automata
-- ---------------------------------------------------------------------------

namespace Nfa

variable {n : Nfa}

/-- An accepted word leads through a state after each of its letters. -/
theorem afterWord_ne_empty_of_begins (h : Begins n.Accepting w) : n.afterWord n.initial w ≠ ∅ := by
  obtain ⟨v, hv⟩ := h
  obtain ⟨t, -, hlead⟩ := accepting_iff_leadsTo.mp hv
  obtain ⟨x, hx, -⟩ := leadsTo_append_iff.mp hlead
  exact SortedSet.ne_empty_iff.mpr ⟨x, mem_afterWord_initial.mpr hx⟩

/-- States are held as long as some accepted word begins so. From a state that is held a
final one can be reached, and what is read on the way there completes the word. -/
theorem Useful.afterWord_ne_empty_iff (hn : n.Valid) (h : n.Useful) :
    n.afterWord n.initial w ≠ ∅ ↔ Begins n.Accepting w := by
  refine ⟨fun hne => ?_, afterWord_ne_empty_of_begins⟩
  obtain ⟨x, hx⟩ := SortedSet.ne_empty_iff.mp hne
  obtain ⟨s, hs, hp⟩ : n.LeadsTo w x := mem_afterWord_initial.mp hx
  obtain ⟨y, hy, v, hv⟩ := h.productive x (hn.path_lt hp (hn.start_lt s hs))
  exact ⟨v, s, hs, y, hy, hp.trans hv⟩

theorem Useful.exists_accepting {s : Nat} (hn : n.Valid) (h : n.Useful) (hs : n.start = some s) :
    ∃ w, n.Accepting w := by
  obtain ⟨y, hy, v, hv⟩ := h.productive s (hn.start_lt s hs)
  exact ⟨v, s, hs, y, hy, hv⟩

/-- A letter of an accepted word is read by a transition. -/
theorem exists_transition_of_accepting {u v : List Char} (h : n.Accepting (u ++ c :: v)) :
    ∃ x y, (x, .char c, y) ∈ n.transitions := by
  obtain ⟨t, -, hlead⟩ := accepting_iff_leadsTo.mp h
  obtain ⟨x, -, hp⟩ := leadsTo_append_iff.mp hlead
  obtain ⟨y, z, -, he, -⟩ := path_cons_iff.mp hp
  exact ⟨y, z, mem_transitions_iff.mpr he⟩

end Nfa

-- ---------------------------------------------------------------------------
-- Deterministic automata
-- ---------------------------------------------------------------------------

namespace Dfa

variable {d : Dfa} {s? : Option Nat} {u v : List Char}

theorem afterWord_append : d.afterWord s? (u ++ v) = d.afterWord (d.afterWord s? u) v :=
  List.foldl_append

/-- Every state is reached by a word, the words of the language are accepted, no state is left
only after a word that none of these begins with, and every symbol is in one of them. -/
structure StopsInTime (L : List Char → Prop) (d : Dfa) : Prop where
  valid : d.Valid
  reached : ∀ x < d.stateCount, ∃ u, d.afterWord d.start u = some x
  isFinal?_iff : ∀ w, d.isFinal? (d.afterWord d.start w) = true ↔ L w
  begins : ∀ w, d.afterWord d.start w ≠ none → Begins L w
  symbol_read : ∀ c ∈ d.alphabet, ∃ u v, L (u ++ c :: v)

/-- An automaton that stops in time is left without a state exactly when no word of the
language begins with what was read. The other direction holds anyway: without a state no
word is accepted. -/
theorem StopsInTime.afterWord_ne_none_iff (h : StopsInTime L d) :
    d.afterWord d.start w ≠ none ↔ Begins L w := by
  refine ⟨h.begins w, ?_⟩
  rintro ⟨v, hv⟩ hnone
  have hfinal := (h.isFinal?_iff _).mpr hv
  rw [afterWord_append, hnone, afterWord_none] at hfinal
  exact absurd hfinal Bool.false_ne_true

/-- An automaton that stops in time has useful states only. Every state is reached by some
word; that word begins one of the language, and what is left of it leads to a final
state. -/
theorem StopsInTime.trim (h : StopsInTime L d) : d.Trim where
  reachable x hx := by
    obtain ⟨u, hu⟩ := h.reached x hx
    exact ⟨u, hu ▸ run_eq h.valid h.valid.start_lt u⟩
  productive x hx := by
    obtain ⟨u, hu⟩ := h.reached x hx
    obtain ⟨v, hv⟩ := h.begins u (by rw [hu]; exact Option.some_ne_none x)
    have hfinal := (h.isFinal?_iff _).mpr hv
    rw [afterWord_append, hu] at hfinal
    obtain ⟨y, hy, hmem⟩ := (Option.any_eq_true ..).mp hfinal
    exact ⟨y, of_decide_eq_true hmem, v,
      hy ▸ run_eq h.valid (fun s hs => Option.some.inj hs ▸ hx) v⟩
  symbol_used c hc := by
    obtain ⟨u, v, hv⟩ := h.symbol_read c hc
    -- the letter is read within a word of the language, so the automaton has a state
    -- behind it
    have hnext : d.afterWord d.start (u ++ [c]) ≠ none :=
      h.afterWord_ne_none_iff.mpr ⟨v, by rwa [List.append_assoc]⟩
    obtain ⟨y, hy⟩ := Option.ne_none_iff_exists'.mp hnext
    rw [afterWord_append] at hy
    obtain ⟨x, -, hx⟩ := Option.bind_eq_some_iff.mp hy
    exact ⟨x, y, mem_transitions_iff.mpr hx⟩

section Searches

variable {naming : StateNaming (SortedSet Nat)} {name : SortedSet Nat → String}
  {letters : List Char} {next : SortedSet Nat → Char → SortedSet Nat} {alphabet : SortedSet Char}
  {first : SortedSet Nat} {fin : FiniteRange fun set => (setMoves letters next set).map (·.2)}

variable (hproper : Proper naming name (setMoves letters next) alphabet (explore _ fin [first]))
  (hleads : LeadsBy letters next)
  (h : IsSearch naming name (setMoves letters next) alphabet (explore _ fin [first]) d)
  (hne : ∀ set ∈ explore _ fin [first], set ≠ ∅)

include hproper hleads h

/-- The state after a word stands for the set that the word leads to. -/
theorem IsSearch.afterWord_eq_some {x : Nat} (hx : d.afterWord d.start w = some x) :
    (explore _ fin [first])[x]? = some (w.foldl next first) := by
  have hafter := h.afterWord_eq hproper hleads getElem?_zero_explore (w := w)
  rw [← h.start, hx] at hafter
  exact hafter

/-- Two words lead to one state exactly if they lead to one set. -/
theorem IsSearch.afterWord_eq_iff {x y : Nat} (hx : d.afterWord d.start u = some x)
    (hy : d.afterWord d.start v = some y) : x = y ↔ u.foldl next first = v.foldl next first := by
  have hplace := h.afterWord_eq_some hproper hleads hx
  have hplace' := h.afterWord_eq_some hproper hleads hy
  rw [← Option.some_inj (a := u.foldl next first), ← hplace, ← hplace']
  exact (List.getElem?_inj (List.getElem?_eq_some_iff.mp hplace).1 hproper.nodup).symm

include hne

/-- No state is left exactly if the set is empty. A set that is not empty has a state,
since it is found by the search. -/
theorem IsSearch.afterWord_eq_none_iff :
    d.afterWord d.start w = none ↔ w.foldl next first = ∅ := by
  have hafter := h.afterWord_eq hproper hleads getElem?_zero_explore (w := w)
  rw [← h.start] at hafter
  cases hend : d.afterWord d.start w with
  | none =>
    rw [hend] at hafter
    exact iff_of_true rfl hafter
  | some x =>
    rw [hend] at hafter
    exact iff_of_false (Option.some_ne_none x) (hne _ (List.mem_of_getElem? hafter))

/-- Every state is reached by a word: its set was found by a search that reads words. That
the word leads to this state and not to another one of the same set is due to sets being
listed once. -/
theorem IsSearch.exists_afterWord {x : Nat} (hx : x < d.stateCount) :
    ∃ u, d.afterWord d.start u = some x := by
  rw [StateTable.stateCount_eq h.labels, List.length_map] at hx
  have hplace := List.getElem?_eq_getElem hx
  obtain ⟨u, hu⟩ := exists_word_of_mem_explore (List.mem_of_getElem? hplace)
  have hnot : d.afterWord d.start u ≠ none := fun hnone =>
    hne _ (List.mem_of_getElem? hplace) (hu ▸ (h.afterWord_eq_none_iff hproper hleads hne).mp hnone)
  obtain ⟨y, hy⟩ := Option.ne_none_iff_exists'.mp hnot
  have hplace' := h.afterWord_eq_some hproper hleads hy
  obtain ⟨hlt, -⟩ := List.getElem?_eq_some_iff.mp hplace'
  have hsame : y = x := (List.getElem?_inj hlt hproper.nodup).mp (by rw [hplace', hplace, hu])
  exact ⟨u, hsame ▸ hy⟩

/-- A search that only goes through sets that lead on to the language stops in time. So to
show that an automaton of a search is trim, one has to look at its sets only. -/
theorem IsSearch.stopsInTime
    (haccepts : ∀ word : String, ∃ b, d.accepts word = .ok b ∧ (b = true ↔ L word.toList))
    (hbegins : ∀ w, w.foldl next first ≠ ∅ → Begins L w)
    (hread : ∀ c ∈ alphabet, ∃ u v, L (u ++ c :: v)) : StopsInTime L d where
  valid := h.valid
  reached x hx := h.exists_afterWord hproper hleads hne hx
  isFinal?_iff w := by
    obtain ⟨b, hb, hiff⟩ := haccepts (String.ofList w)
    rw [Dfa.accepts_eq h.valid, String.toList_ofList] at hb
    rw [String.toList_ofList] at hiff
    rw [Except.ok.inj hb, hiff]
  begins w hw := hbegins w (mt (h.afterWord_eq_none_iff hproper hleads hne).mpr hw)
  symbol_read c hc := hread c ((h.mem_alphabet c).mp hc)

end Searches

end Dfa

end PatternAutomata
