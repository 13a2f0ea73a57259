import PatternAutomata.Proofs.Automaton.Interleave
import PatternAutomata.Proofs.Automaton.Subset

/-!
# Pattern automata — every element a state of its own

Products and searches are made by a loop that adds a state for each element, by
the element's label. A label in use would give the state that has it, and two
elements would share a state. `EachNew` says that this happens at no round of the
loop: what the loop has made so far does not have the label of the next element.

## Results

* `Nfa.IsProduct.eachNew` — a product has a state for every pair, if labels are distinct.
* `Dfa.IsSearch.eachNew`  — so has the automaton of a search for every element.
* `Dfa.exists_ofNfa_eachNew` — in particular the subset automaton for every set.
-/

namespace PatternAutomata

/-- The states of `t` are the elements of `xs` under their labels, and the loop that adds them
to `b` in turn never meets a label that is in use. -/
structure EachNew {α β : Type} (label : α → Except Fault String)
    (add : β → α → Except Fault β) (table : β → StateTable) (b : β) (xs : List α)
    (t : StateTable) : Prop where
  nodup : xs.Nodup
  labels : xs.mapM label = .ok t.labels.toList
  new : ∀ before x after, xs = before ++ x :: after → ∃ b' text,
    before.foldlM add b = .ok b' ∧ label x = .ok text ∧ (table b').find? text = none

/-- A loop that keeps the labels of what it has gone through finds each label new, if no
two labels are the same: at the next element it has the labels of the others before it
only. -/
theorem eachNew_of_inj {α β : Type} {label : α → Except Fault String}
    {add : β → α → Except Fault β} {table : β → StateTable} {b : β} {xs : List α}
    {t : StateTable} {name : α → String} (hnodup : xs.Nodup)
    (hlabel : ∀ x ∈ xs, label x = .ok (name x))
    (hinj : ∀ x ∈ xs, ∀ y ∈ xs, name x = name y → x = y)
    (hlabels : t.labels.toList = xs.map name)
    (hloop : ∀ ys, ys <+: xs →
      ∃ b', ys.foldlM add b = .ok b' ∧ (table b').labels.toList = ys.map name) :
    EachNew label add table b xs t where
  nodup := hnodup
  labels := by rw [mapM_eq_ok hlabel, hlabels]
  new := by
    intro before x after hxs
    -- the loop over what is before `x` has made the labels of that, and no others
    obtain ⟨b', hrun, hb'⟩ := hloop before ⟨x :: after, hxs.symm⟩
    have hnew := not_mem_map_of_eq_append_cons hnodup hinj hxs
    exact ⟨b', name x, hrun, hlabel x (by simp [hxs]),
      StateTable.find?_eq_none_iff.mpr (hb'.symm ▸ hnew)⟩

namespace Nfa

/-- Every pair that is reached adds a state to the product, so the number of states is
that of pairs. -/
theorem IsProduct.eachNew {l r n : Nfa} {origin : Nat × Nat} (h : IsProduct l r origin n)
    (hl : l.Valid) (hr : r.Valid) (horigin : HasPair l r origin)
    (hdistinct : Distinct l r origin) :
    EachNew (pairLabel l r) (addPair l r) Nfa.toStateTable
      { alphabet := l.alphabet ∪ r.alphabet } (reachedPairs l r origin) n.toStateTable := by
  refine eachNew_of_inj nodup_explore (fun p hp => ?_) hdistinct h.labels fun ps hps => ?_
  · exact pairLabel_eq_ok (hasPair_of_mem_reachedPairs hl hr horigin hp)
  · obtain ⟨m, hrun, hm⟩ := exists_holdsPairs hl hr horigin hdistinct hps
    exact ⟨m, hrun, hm.labels⟩

end Nfa

namespace Dfa

variable {α : Type} {naming : StateNaming α} {name : α → String} {moves : α → List (Char × α)}
  {alphabet : SortedSet Char} {xs : List α} {d : Dfa}

/-- Every element that is found adds a state to the automaton of the search. -/
theorem IsSearch.eachNew [DecidableEq α] (h : IsSearch naming name moves alphabet xs d)
    (hproper : Proper naming name moves alphabet xs) :
    EachNew naming.label (addElement naming) Dfa.toStateTable { alphabet := alphabet } xs
      d.toStateTable := by
  refine eachNew_of_inj hproper.nodup hproper.label hproper.name_inj h.labels fun ys hys => ?_
  obtain ⟨d', hrun, hd'⟩ := hproper.exists_holdsElements hys
  exact ⟨d', hrun, hd'.labels⟩

/-- Every set that is reached adds a state to the subset automaton. -/
theorem exists_ofNfa_eachNew {n : Nfa} {s : Nat} (hn : n.Valid) (hdistinct : n.SubsetsDistinct)
    (hstart : n.start = some s) :
    ∃ d, ofNfa n = .ok d ∧ EachNew n.subsetLabel (addElement n.subsetNaming) Dfa.toStateTable
      { alphabet := n.alphabet } n.subsets d.toStateTable := by
  obtain ⟨d, hd, hsearch, -⟩ := exists_subsetSearch hn hdistinct hstart
  exact ⟨d, hd, hsearch.eachNew (proper_subsets hn hdistinct)⟩

end Dfa

end PatternAutomata
