import PatternAutomata.Automaton.Interleave
import PatternAutomata.Direct
import PatternAutomata.Proofs.Automaton.Deterministic
import PatternAutomata.Proofs.Automaton.Operations

/-!
# Pattern automata — automata that operations build

Nondeterministic automata are made by their operations and by interleaving,
deterministic ones by theirs, by determinization and by the direct construction.
The constructions are runs of the operations, whatever they are applied to, so
what every operation keeps holds of all automata.

## Results

* `Nfa.interleave_valid`, `Dfa.ofElements_valid` — what a product or a search makes fits together.
* `Nfa.Built.valid`, `Dfa.Built.valid` — every automaton that operations build does.
-/

namespace PatternAutomata

-- ---------------------------------------------------------------------------
-- Nondeterministic automata
-- ---------------------------------------------------------------------------

namespace Nfa

variable {l r n n' : Nfa} {p : Nat × Nat} {source : String} {move : PairMove}

/-- Adding the state of a pair keeps the parts together, whatever the operands are. -/
theorem Valid.addPair (hn : n.Valid) (h : addPair l r n p = .ok n') : n'.Valid := by
  obtain ⟨label, -, h⟩ := bind_eq_ok.mp h
  dsimp only at h
  split at h
  · exact (hn.addState label).addFinal h
  · exact Except.ok.inj h ▸ hn.addState label

/-- So does adding the transition of a step, with the tie that it leaves. -/
theorem Valid.linkPairs (hn : n.Valid) (h : linkPairs l r source n move = .ok n') :
    n'.Valid := by
  obtain ⟨label, -, h⟩ := bind_eq_ok.mp h
  obtain ⟨linked, hlinked, h⟩ := bind_eq_ok.mp h
  exact Except.ok.inj h ▸ (((hn.addState source).addState label).addTransition hlinked).recordTie _

theorem Valid.addPairMoves (hn : n.Valid) (h : addPairMoves l r n p = .ok n') : n'.Valid := by
  obtain ⟨label, -, h⟩ := bind_eq_ok.mp h
  obtain ⟨moves, -, h⟩ := bind_eq_ok.mp h
  exact foldlM_invariant (fun _ _ _ hn h => hn.linkPairs h) hn h

/-- A product fits together, if it is made at all. Nothing is asked of the operands: the
product is a run of operations, and each of these keeps the parts together. -/
theorem interleave_valid (h : l.interleave r = .ok n) : n.Valid := by
  unfold interleave at h
  split at h
  · obtain ⟨states, hstates, h⟩ := bind_eq_ok.mp h
    obtain ⟨label, -, h⟩ := bind_eq_ok.mp h
    obtain ⟨started, hstarted, h⟩ := bind_eq_ok.mp h
    -- first the states are made, then the start is set and then the moves are added
    have hvalid : states.Valid :=
      foldlM_invariant (fun _ _ _ hn h => hn.addPair h) (valid_empty _) hstates
    exact foldlM_invariant (fun _ _ _ hn h => hn.addPairMoves h) (hvalid.setStart hstarted) h
  · exact nomatch h

/-- The automata that some sequence of operations builds, none of which fails. A
construction need not be listed if it is itself a run of these operations. -/
inductive Built : Nfa → Prop
  | empty : Built {}
  | addState {n : Nfa} (label : String) : Built n → Built (n.addState label).1
  | setStart {n n' : Nfa} {s : Nat} : Built n → n.setStart s = .ok n' → Built n'
  | addFinal {n n' : Nfa} {s : Nat} : Built n → n.addFinal s = .ok n' → Built n'
  | removeFinal {n : Nfa} (s : Nat) : Built n → Built (n.removeFinal s)
  | addSymbol {n : Nfa} (c : Char) : Built n → Built (n.addSymbol c)
  | addTransition {n n' : Nfa} {s t : Nat} {a : Symbol} :
      Built n → n.addTransition s a t = .ok n' → Built n'
  | deleteTransition {n n' : Nfa} {s t : Nat} {a : Symbol} {found : Bool} :
      Built n → n.deleteTransition s a t = .ok (n', found) → Built n'
  | recordTie {n : Nfa} (tie : Tie) : Built n → Built (n.recordTie tie)
  | absorb {n m n' : Nfa} {offset : Nat} :
      Built n → Built m → n.absorb m = .ok (n', offset) → Built n'
  | interleave {l r n : Nfa} : Built l → Built r → l.interleave r = .ok n → Built n

/-- Every automaton that operations build fits together, by one case for each operation.
That no operation fails is part of how it was built. -/
theorem Built.valid {n : Nfa} (h : n.Built) : n.Valid := by
  induction h with
  | empty => exact valid_empty ∅
  | addState label _ ih => exact ih.addState label
  | setStart _ hrun ih => exact ih.setStart hrun
  | addFinal _ hrun ih => exact ih.addFinal hrun
  | removeFinal s _ ih => exact ih.removeFinal s
  | addSymbol c _ ih => exact ih.addSymbol c
  | addTransition _ hrun ih => exact ih.addTransition hrun
  | deleteTransition _ hrun ih => exact ih.deleteTransition hrun
  | recordTie tie _ ih => exact ih.recordTie tie
  | absorb _ _ hrun ih ih' => exact ih.absorb ih' hrun
  | interleave _ _ hrun => exact interleave_valid hrun

end Nfa

-- ---------------------------------------------------------------------------
-- Deterministic automata
-- ---------------------------------------------------------------------------

namespace Dfa

section Elements

variable {α : Type} {naming : StateNaming α} {d d' : Dfa} {x : α} {source : String}
  {move : Char × α} {visit : α × List (Char × α)} {alphabet : SortedSet Char}
  {visits : List (α × List (Char × α))}

/-- Adding the state of an element keeps the parts together, however elements are named. -/
theorem Valid.addElement (hd : d.Valid) (h : addElement naming d x = .ok d') : d'.Valid := by
  obtain ⟨label, -, h⟩ := bind_eq_ok.mp h
  dsimp only at h
  split at h
  · exact (hd.addState label).addFinal h
  · exact Except.ok.inj h ▸ hd.addState label

theorem Valid.linkElements (hd : d.Valid) (h : linkElements naming source d move = .ok d') :
    d'.Valid := by
  obtain ⟨label, -, h⟩ := bind_eq_ok.mp h
  exact ((hd.addState source).addState label).addTransition h

theorem Valid.addMoves (hd : d.Valid) (h : addMoves naming d visit = .ok d') : d'.Valid := by
  obtain ⟨label, -, h⟩ := bind_eq_ok.mp h
  exact foldlM_invariant (fun _ _ _ hd h => hd.linkElements h) hd h

/-- The automaton of any search fits together, if it is made at all. Determinization and
the direct construction are both of this kind. -/
theorem ofElements_valid (h : ofElements alphabet naming visits = .ok d) : d.Valid := by
  obtain ⟨states, hstates, h⟩ := bind_eq_ok.mp h
  have hvalid : states.Valid :=
    foldlM_invariant (fun _ _ _ hd h => hd.addElement h) (valid_empty alphabet) hstates
  have hmoves : ∀ started : Dfa, started.Valid →
      visits.foldlM (Dfa.addMoves naming) started = .ok d → d.Valid := fun _ hstarted h =>
    foldlM_invariant (fun _ _ _ hd h => hd.addMoves h) hstarted h
  -- without a first element there is no start to be set
  cases visits with
  | nil => exact hmoves states hvalid h
  | cons visit visits =>
    obtain ⟨label, -, h⟩ := bind_eq_ok.mp h
    obtain ⟨started, hstarted, h⟩ := bind_eq_ok.mp h
    exact hmoves started (hvalid.setStart hstarted) h

end Elements

/-- So a subset automaton fits together, -/
theorem ofNfa_valid {n : Nfa} {d : Dfa} (h : ofNfa n = .ok d) : d.Valid := by
  unfold ofNfa at h
  split at h
  · exact Except.ok.inj h ▸ valid_empty n.alphabet
  · obtain ⟨visits, -, h⟩ := bind_eq_ok.mp h
    exact ofElements_valid h

end Dfa

namespace ParseTree

variable {t : ParseTree} {d : Dfa}

/-- and so does an automaton of sets of positions, -/
theorem positionAutomaton_valid (h : t.positionAutomaton = .ok d) : d.Valid := by
  obtain ⟨a, -, h⟩ := bind_eq_ok.mp h
  obtain ⟨f, -, h⟩ := bind_eq_ok.mp h
  obtain ⟨first, -, h⟩ := bind_eq_ok.mp h
  obtain ⟨visits, -, h⟩ := bind_eq_ok.mp h
  exact Dfa.ofElements_valid h

/-- and the direct automaton, which is one of the two, depending on whether there is an
interleaving. -/
theorem direct_valid (h : t.direct = .ok d) : d.Valid := by
  obtain ⟨x, hx, h⟩ := bind_eq_ok.mp h
  obtain rfl := Except.ok.inj h
  unfold directLogged at hx
  split at hx
  · obtain ⟨n, -, hx⟩ := bind_eq_ok.mp hx
    obtain ⟨d, hd, hx⟩ := bind_eq_ok.mp hx
    exact Except.ok.inj hx ▸ Dfa.ofNfa_valid hd
  · obtain ⟨d, hd, hx⟩ := bind_eq_ok.mp hx
    exact Except.ok.inj hx ▸ positionAutomaton_valid hd

end ParseTree

namespace Dfa

/-- The automata that some sequence of operations builds, none of which fails. The two
constructions are listed as they may be taken of any operand. -/
inductive Built : Dfa → Prop
  | empty : Built {}
  | addState {d : Dfa} (label : String) : Built d → Built (d.addState label).1
  | setStart {d d' : Dfa} {s : Nat} : Built d → d.setStart s = .ok d' → Built d'
  | addFinal {d d' : Dfa} {s : Nat} : Built d → d.addFinal s = .ok d' → Built d'
  | removeFinal {d : Dfa} (s : Nat) : Built d → Built (d.removeFinal s)
  | addSymbol {d : Dfa} (c : Char) : Built d → Built (d.addSymbol c)
  | addTransition {d d' : Dfa} {s t : Nat} {c : Char} :
      Built d → d.addTransition s c t = .ok d' → Built d'
  | deleteTransition {d d' : Dfa} {s t : Nat} {c : Char} {found : Bool} :
      Built d → d.deleteTransition s c t = .ok (d', found) → Built d'
  | ofNfa {n : Nfa} {d : Dfa} : ofNfa n = .ok d → Built d
  | direct {t : ParseTree} {d : Dfa} : t.direct = .ok d → Built d

/-- Every automaton that operations build fits together, by one case for each operation.
Constructions count as operations here, whatever they were given. -/
theorem Built.valid {d : Dfa} (h : d.Built) : d.Valid := by
  induction h with
  | empty => exact valid_empty ∅
  | addState label _ ih => exact ih.addState label
  | setStart _ hrun ih => exact ih.setStart hrun
  | addFinal _ hrun ih => exact ih.addFinal hrun
  | removeFinal s _ ih => exact ih.removeFinal s
  | addSymbol c _ ih => exact ih.addSymbol c
  | addTransition _ hrun ih => exact ih.addTransition hrun
  | deleteTransition _ hrun ih => exact ih.deleteTransition hrun
  | ofNfa hrun => exact ofNfa_valid hrun
  | direct hrun => exact ParseTree.direct_valid hrun

end Dfa

end PatternAutomata
