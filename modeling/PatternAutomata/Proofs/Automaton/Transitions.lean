import Mathlib.Data.List.Nodup
import Mathlib.Data.Prod.Basic
import Mathlib.Data.Set.Insert
import PatternAutomata.Proofs.Automaton.AnyLabels

/-!
# Pattern automata — transitions as a relation

Transitions are held in a row for each state, by symbol, and a nondeterministic
row holds sets of targets. What the rows stand for is flat: a set of triples, or
for a deterministic automaton a partial map. `Triples` and `PartialMap` are that,
with the letters of the alphabet, and a `History` is a sequence of operations that
succeed, together with what they do to it.

Every operation does to the rows what it does to the relation (`Refines`). So
after any history all questions about transitions are answered from the relation,
and the listing has its members once each, in order.

## Results

* `Nfa.Refines.addTransition`, `Nfa.Refines.deleteTransition`, `Nfa.Refines.absorb`, … — one step.
* `Nfa.History.refines`, `Dfa.History.refines` — any number of steps.
* `pairwise_transitions` — what is listed row by row is listed in order.
* `histories_represented` — all questions are answered from the relation.
-/

namespace PatternAutomata

-- ---------------------------------------------------------------------------
-- The order of a listing
-- ---------------------------------------------------------------------------

/-- The order of symbols: `ε` comes first, and characters by their code points. It is
spelt out here to say how transitions are listed without any mention of ranks. -/
inductive Symbol.Before : Symbol → Symbol → Prop
  | epsilon (c : Char) : Before .epsilon (.char c)
  | char {c e : Char} : c < e → Before (.char c) (.char e)

/-- The order of symbols is the one by which rows are sorted. So what a row lists in the
order of its keys is listed in this order. -/
theorem Symbol.before_iff_rank {a b : Symbol} : a.Before b ↔ Ranked.rank a < Ranked.rank b := by
  constructor
  · intro h
    cases h with
    | epsilon c => exact Nat.succ_pos c.toNat
    | char h => exact Nat.succ_lt_succ h
  · intro h
    -- `ε` has the least rank, and characters those of their code points
    cases a with
    | epsilon =>
      cases b with
      | epsilon => exact absurd h (Nat.lt_irrefl _)
      | char c => exact .epsilon c
    | char c =>
      cases b with
      | epsilon => exact absurd h (Nat.not_lt_zero _)
      | char e => exact .char (Nat.lt_of_succ_lt_succ h)

instance : Std.Irrefl Symbol.Before where
  irrefl _ h := Nat.lt_irrefl _ (Symbol.before_iff_rank.mp h)

/-- What is listed row by row, each row in its order, is listed in order. The number of
the row counts first, so only moves of one row have to be compared. Both kinds of automata
list in this way, with moves of different kinds. -/
theorem pairwise_transitions {ρ β : Type} {R : β → β → Prop} {moves : ρ → List β} {rows : List ρ}
    (h : ∀ row ∈ rows, (moves row).Pairwise R) :
    (rows.zipIdx.flatMap fun (row, s) => (moves row).map (s, ·)).Pairwise
      (Prod.Lex (· < ·) R) := by
  have hindex : ∀ k, (rows.zipIdx k).Pairwise fun x y => x.2 < y.2 := by
    -- the numbers alone: the premise on rows would be in the way of the induction
    clear h
    induction rows with
    | nil => exact fun _ => .nil
    | cons row rows ih =>
      intro k
      refine List.pairwise_cons.mpr ⟨fun x hx => ?_, ih (k + 1)⟩
      exact List.le_snd_of_mem_zipIdx hx
  refine List.pairwise_flatMap.mpr ⟨fun x hx => ?_, (hindex 0).imp fun hlt y hy z hz => ?_⟩
  · refine List.pairwise_map.mpr ((h x.1 (List.fst_mem_of_mem_zipIdx hx)).imp fun hr => ?_)
    exact .right x.2 hr
  · obtain ⟨y, -, rfl⟩ := List.mem_map.mp hy
    obtain ⟨z, -, rfl⟩ := List.mem_map.mp hz
    exact .left _ _ hlt

-- ---------------------------------------------------------------------------
-- Nondeterministic automata
-- ---------------------------------------------------------------------------

/-- What the rows and the alphabet of a nondeterministic automaton stand for: a set of
transitions and a set of letters, without any order and without a place for each state. -/
structure Triples where
  triples : Set (Nat × Symbol × Nat) := ∅
  letters : Set Char := ∅

namespace Triples

/-- A letter can be known without a triple that has it. -/
def addLetter (r : Triples) (c : Char) : Triples :=
  { r with letters := insert c r.letters }

/-- One triple more. If it is on a character, the character becomes a letter. -/
def add (r : Triples) (s : Nat) (a : Symbol) (t : Nat) : Triples where
  triples := insert (s, a, t) r.triples
  letters := r.letters ∪ {c | a = .char c}

/-- Letters stay, whether or not a triple has them. -/
def delete (r : Triples) (s : Nat) (a : Symbol) (t : Nat) : Triples where
  triples := r.triples \ {(s, a, t)}
  letters := r.letters

/-- The triples of both, those of `other` with both ends raised. -/
def absorb (r : Triples) (offset : Nat) (other : Triples) : Triples where
  triples := r.triples ∪ (fun e => (e.1 + offset, e.2.1, e.2.2 + offset)) '' other.triples
  letters := r.letters ∪ other.letters

end Triples

namespace Nfa

/-- Operations that all succeed, and what they do to the triples. Operations on labels, on
the start and on final states are steps too: they do nothing to the triples, and the point
is that they do not. What is absorbed has a history of its own. -/
inductive History : Nfa → Triples → Prop
  | empty : History {} {}
  | addState {n : Nfa} {r : Triples} (label : String) :
      History n r → History (n.addState label).1 r
  | setStart {n n' : Nfa} {r : Triples} {s : Nat} :
      History n r → n.setStart s = .ok n' → History n' r
  | addFinal {n n' : Nfa} {r : Triples} {s : Nat} :
      History n r → n.addFinal s = .ok n' → History n' r
  | removeFinal {n : Nfa} {r : Triples} (s : Nat) : History n r → History (n.removeFinal s) r
  | addSymbol {n : Nfa} {r : Triples} (c : Char) :
      History n r → History (n.addSymbol c) (r.addLetter c)
  | addTransition {n n' : Nfa} {r : Triples} {s t : Nat} {a : Symbol} :
      History n r → n.addTransition s a t = .ok n' → History n' (r.add s a t)
  | deleteTransition {n n' : Nfa} {r : Triples} {s t : Nat} {a : Symbol} {found : Bool} :
      History n r → n.deleteTransition s a t = .ok (n', found) → History n' (r.delete s a t)
  | recordTie {n : Nfa} {r : Triples} (tie : Tie) : History n r → History (n.recordTie tie) r
  | absorb {n m n' : Nfa} {r q : Triples} {offset : Nat} :
      History n r → History m q → n.absorb m = .ok (n', offset) →
        History n' (r.absorb n.stateCount q)

variable {n n' m : Nfa} {r q : Triples} {s t : Nat} {a : Symbol} {c : Char} {found : Bool}
  {offset : Nat}

/-- The rows say what the triples say. Validity is a part of this, as an operation does to
the rows what it should only where they fit to the states. -/
structure Refines (n : Nfa) (r : Triples) : Prop where
  valid : n.Valid
  edge : ∀ s a t, n.Edge s a t ↔ (s, a, t) ∈ r.triples
  alphabet : ∀ c, c ∈ n.alphabet ↔ c ∈ r.letters

theorem refines_empty : ({} : Nfa).Refines {} where
  valid := valid_empty ∅
  edge s _ _ := iff_of_false (not_edge_of_size_le (Nat.zero_le s)) (Set.notMem_empty _)
  alphabet c := iff_of_false SortedSet.not_mem_empty (Set.notMem_empty c)

/-- Operations on other parts leave the rows and the alphabet, so what these stand for
stays too. This settles the start and the final states at once. -/
theorem Refines.congr (h : n.Refines r) (hvalid : n'.Valid) (hrows : n'.rows = n.rows)
    (halphabet : n'.alphabet = n.alphabet) : n'.Refines r where
  valid := hvalid
  edge s a t := by
    rw [edge_iff, hrows]
    exact h.edge s a t
  alphabet c := by
    rw [halphabet]
    exact h.alphabet c

/-- A new state has an empty row, and a label in use changes nothing at all, so no
transition comes and none goes. -/
theorem Refines.addState (h : n.Refines r) (label : String) : (n.addState label).1.Refines r := by
  cases hfind : n.find? label with
  | none =>
    rw [addState_of_find?_eq_none hfind]
    exact ⟨h.valid.withState, fun s a t => edge_withState.trans (h.edge s a t), h.alphabet⟩
  | some s =>
    rw [addState_of_find?_eq_some hfind]
    exact h

theorem Refines.setStart (h : n.Refines r) (hset : n.setStart s = .ok n') : n'.Refines r := by
  have hvalid := h.valid.setStart hset
  obtain ⟨-, rfl⟩ := setStart_eq_ok_iff.mp hset
  exact h.congr hvalid rfl rfl

theorem Refines.addFinal (h : n.Refines r) (hadd : n.addFinal s = .ok n') : n'.Refines r := by
  have hvalid := h.valid.addFinal hadd
  obtain ⟨-, rfl⟩ := addFinal_eq_ok_iff.mp hadd
  exact h.congr hvalid rfl rfl

theorem Refines.addSymbol (h : n.Refines r) (c : Char) :
    (n.addSymbol c).Refines (r.addLetter c) where
  valid := h.valid.addSymbol c
  edge := h.edge
  alphabet e := SortedSet.mem_insert.trans (or_congr_right (h.alphabet e))

/-- A transition that is there already is added without any effect, on both sides. Its
letter, if it has one, is in the alphabet from then on, whether it was before or not. -/
theorem Refines.addTransition (h : n.Refines r) (hadd : n.addTransition s a t = .ok n') :
    n'.Refines (r.add s a t) := by
  have hvalid := h.valid.addTransition hadd
  obtain ⟨hs, -, rfl⟩ := addTransition_eq_ok_iff.mp hadd
  refine ⟨hvalid, fun x b y => ?_, fun c => ?_⟩
  · rw [edge_extend (by simpa using hs), h.edge, List.mem_singleton, or_comm]
    rfl
  · -- an edge on `ε` brings no letter
    have hletter : (∃ x y, (x, Symbol.char c, y) ∈ [(s, a, t)]) ↔ a = .char c := by
      simp [eq_comm]
    rw [mem_alphabet_extend, h.alphabet, hletter]
    rfl

/-- Deleting a transition that is not there has no effect either. Letters stay, even if
this was the last transition on one. -/
theorem Refines.deleteTransition (h : n.Refines r)
    (hdelete : n.deleteTransition s a t = .ok (n', found)) : n'.Refines (r.delete s a t) := by
  have hvalid := h.valid.deleteTransition hdelete
  obtain ⟨hs, rfl, -⟩ := deleteTransition_eq_ok_iff.mp hdelete
  refine ⟨hvalid, fun x b y => ?_, h.alphabet⟩
  rw [edge_unlink hs, h.edge]
  rfl

/-- Absorbing is a union, with the states of `m` renamed. That labels are not shared is a
part of its success. -/
theorem Refines.absorb (h : n.Refines r) (hm : m.Refines q)
    (habsorb : n.absorb m = .ok (n', offset)) : n'.Refines (r.absorb n.stateCount q) := by
  have hvalid := h.valid.absorb hm.valid habsorb
  obtain ⟨hshared, -, rfl, -⟩ := absorb_eq_ok_iff.mp habsorb
  refine ⟨hvalid, fun x b y => ?_, fun c => ?_⟩
  · rw [edge_merge h.valid, h.edge]
    -- an edge of the absorbed part is a triple of `q` with both ends raised by the same
    -- number
    refine or_congr_right ⟨?_, ?_⟩
    · intro ⟨s, t, he, hx, hy⟩
      exact ⟨(s, b, t), (hm.edge s b t).mp he, by rw [hx, hy]⟩
    · intro ⟨⟨s, a, t⟩, he, heq⟩
      obtain ⟨rfl, rfl, rfl⟩ := heq
      exact ⟨s, t, (hm.edge s a t).mpr he, rfl, rfl⟩
  · rw [alphabet_merge, SortedSet.mem_union, h.alphabet, hm.alphabet]
    rfl

/-- After any history the rows say what the triples say. The induction is on the history,
each case the step lemma of its operation, and a case of `absorb` has two hypotheses. -/
theorem History.refines (h : n.History r) : n.Refines r := by
  induction h with
  | empty => exact refines_empty
  | addState label _ ih => exact ih.addState label
  | setStart _ hrun ih => exact ih.setStart hrun
  | addFinal _ hrun ih => exact ih.addFinal hrun
  | removeFinal s _ ih => exact ih.congr (ih.valid.removeFinal s) rfl rfl
  | addSymbol c _ ih => exact ih.addSymbol c
  | addTransition _ hrun ih => exact ih.addTransition hrun
  | deleteTransition _ hrun ih => exact ih.deleteTransition hrun
  | recordTie tie _ ih => exact ih.congr (ih.valid.recordTie tie) rfl rfl
  | absorb _ _ hrun ih ih' => exact ih.absorb ih' hrun

/-- The moves of a row stand in the order of symbols, and those on a symbol in that of
targets. Rows and sets of targets are both kept sorted, so this is read off them. -/
theorem pairwise_rowMoves (row : SortedMap Symbol (SortedSet Nat)) :
    (rowMoves row).Pairwise (Prod.Lex Symbol.Before (· < ·)) := by
  refine List.pairwise_flatMap.mpr ⟨fun e _ => ?_, row.sorted.imp fun hlt x hx y hy => ?_⟩
  · exact List.pairwise_map.mpr (e.2.sorted.imp fun hlt => .right e.1 hlt)
  · obtain ⟨_, -, rfl⟩ := List.mem_map.mp hx
    obtain ⟨_, -, rfl⟩ := List.mem_map.mp hy
    exact .left _ _ (Symbol.before_iff_rank.mpr hlt)

/-- All questions about transitions are answered from the triples. Questions about a state
come with their success, since for a number that is none they are faults. -/
structure Represents (n : Nfa) (r : Triples) : Prop where
  transitions_sorted :
    n.transitions.Pairwise (Prod.Lex (· < ·) (Prod.Lex Symbol.Before (· < ·)))
  transitions_nodup : n.transitions.Nodup
  mem_transitions : ∀ s a t, (s, a, t) ∈ n.transitions ↔ (s, a, t) ∈ r.triples
  targets : ∀ s < n.stateCount, ∀ a, ∃ targets, n.targets s a = .ok targets ∧
    ∀ t, t ∈ targets ↔ (s, a, t) ∈ r.triples
  moves : ∀ s < n.stateCount, ∃ moves, n.moves s = .ok moves ∧
    moves.Pairwise (Prod.Lex Symbol.Before (· < ·)) ∧
    ∀ a t, (a, t) ∈ moves ↔ (s, a, t) ∈ r.triples
  hasTransitionOn : ∀ s < n.stateCount, ∀ a, ∃ b, n.hasTransitionOn s a = .ok b ∧
    (b = true ↔ ∃ t, (s, a, t) ∈ r.triples)
  deleteTransition : ∀ s < n.stateCount, ∀ a t, ∃ n' found,
    n.deleteTransition s a t = .ok (n', found) ∧ (found = true ↔ (s, a, t) ∈ r.triples) ∧
    n'.alphabet = n.alphabet
  alphabet : ∀ c, c ∈ n.alphabet ↔ c ∈ r.letters

/-- Each question reads one row, so what is left is to read that row by `edge`. That
deleting tells whether the transition was there is decided before it is taken out. -/
theorem Refines.represents (h : n.Refines r) : n.Represents r := by
  have hrow : ∀ s < n.stateCount, n.row s = .ok (n.rows.getD s ∅) := fun s hs =>
    row_eq (h.valid.size_rows.symm ▸ hs)
  have hsorted : n.transitions.Pairwise (Prod.Lex (· < ·) (Prod.Lex Symbol.Before (· < ·))) :=
    pairwise_transitions fun row _ => pairwise_rowMoves row
  refine {
    transitions_sorted := hsorted
    transitions_nodup := hsorted.nodup
    mem_transitions := fun s a t => mem_transitions_iff.trans (h.edge s a t)
    targets := fun s hs a => ?_
    moves := fun s hs => ?_
    hasTransitionOn := fun s hs a => ?_
    deleteTransition := fun s hs a t => ?_
    alphabet := h.alphabet }
  · exact ⟨_, by rw [Nfa.targets, hrow s hs]; rfl, fun t => h.edge s a t⟩
  · refine ⟨_, by rw [Nfa.moves, hrow s hs]; rfl, pairwise_rowMoves _, fun a t => ?_⟩
    exact mem_rowMoves.trans (h.edge s a t)
  · refine ⟨_, by rw [Nfa.hasTransitionOn, Nfa.targets, hrow s hs]; rfl, ?_⟩
    have hnone : (rowTargets (n.rows.getD s ∅) a).isEmpty = true ↔
        ¬ ∃ t, (s, a, t) ∈ r.triples := by
      -- no target is left over: emptiness of the set is that no triple goes out on `a`
      rw [SortedSet.isEmpty_iff, not_exists]
      exact forall_congr' fun t => not_congr (h.edge s a t)
    rw [Bool.not_eq_true', ← Bool.not_eq_true, hnone, not_not]
  · refine ⟨_, _, deleteTransition_eq_ok_iff.mpr ⟨h.valid.size_rows.symm ▸ hs, rfl, rfl⟩, ?_, rfl⟩
    rw [decide_eq_true_iff]
    exact h.edge s a t

end Nfa

-- ---------------------------------------------------------------------------
-- Deterministic automata
-- ---------------------------------------------------------------------------

/-- What the rows and the alphabet of a deterministic automaton stand for: where a state
leads on a letter, if anywhere, and the letters. -/
structure PartialMap where
  next : Nat → Char → Option Nat := fun _ _ => none
  letters : Set Char := ∅

namespace PartialMap

/-- A letter can be known without a transition on it. -/
def addLetter (f : PartialMap) (c : Char) : PartialMap :=
  { f with letters := insert c f.letters }

/-- What `s` led to on `c` before is forgotten. -/
def put (f : PartialMap) (s : Nat) (c : Char) (t : Nat) : PartialMap where
  next x e := if x = s ∧ e = c then some t else f.next x e
  letters := insert c f.letters

/-- Nothing changes unless `t` is what `s` leads to on `c`. -/
def delete (f : PartialMap) (s : Nat) (c : Char) (t : Nat) : PartialMap where
  next x e := if x = s ∧ e = c ∧ f.next s c = some t then none else f.next x e
  letters := f.letters

end PartialMap

namespace Dfa

/-- Operations that all succeed, and what they do to the map. Other than with triples,
adding a transition can take another one away. -/
inductive History : Dfa → PartialMap → Prop
  | empty : History {} {}
  | addState {d : Dfa} {f : PartialMap} (label : String) :
      History d f → History (d.addState label).1 f
  | setStart {d d' : Dfa} {f : PartialMap} {s : Nat} :
      History d f → d.setStart s = .ok d' → History d' f
  | addFinal {d d' : Dfa} {f : PartialMap} {s : Nat} :
      History d f → d.addFinal s = .ok d' → History d' f
  | removeFinal {d : Dfa} {f : PartialMap} (s : Nat) : History d f → History (d.removeFinal s) f
  | addSymbol {d : Dfa} {f : PartialMap} (c : Char) :
      History d f → History (d.addSymbol c) (f.addLetter c)
  | addTransition {d d' : Dfa} {f : PartialMap} {s t : Nat} {c : Char} :
      History d f → d.addTransition s c t = .ok d' → History d' (f.put s c t)
  | deleteTransition {d d' : Dfa} {f : PartialMap} {s t : Nat} {c : Char} {found : Bool} :
      History d f → d.deleteTransition s c t = .ok (d', found) → History d' (f.delete s c t)

variable {d d' : Dfa} {f : PartialMap} {s t : Nat} {c : Char} {found : Bool}

/-- The rows say what the map says, and the alphabet is the set of the letters. States
that do not exist lead nowhere in the map. -/
structure Refines (d : Dfa) (f : PartialMap) : Prop where
  valid : d.Valid
  next : ∀ s c, d.nextOf (some s) c = f.next s c
  alphabet : ∀ c, c ∈ d.alphabet ↔ c ∈ f.letters

theorem refines_empty : ({} : Dfa).Refines {} where
  valid := valid_empty ∅
  next s _ := nextOf_eq_none_of_size_le (Nat.zero_le s)
  alphabet c := iff_of_false SortedSet.not_mem_empty (Set.notMem_empty c)

/-- A new state leads nowhere, and a label in use changes nothing at all. -/
theorem Refines.addState (h : d.Refines f) (label : String) : (d.addState label).1.Refines f := by
  cases hfind : d.find? label with
  | none =>
    rw [addState_of_find?_eq_none hfind]
    exact ⟨h.valid.withState, fun s c => nextOf_withState.trans (h.next s c), h.alphabet⟩
  | some s =>
    rw [addState_of_find?_eq_some hfind]
    exact h

theorem Refines.setStart (h : d.Refines f) (hset : d.setStart s = .ok d') : d'.Refines f := by
  have hvalid := h.valid.setStart hset
  obtain ⟨-, rfl⟩ := setStart_eq_ok_iff.mp hset
  exact ⟨hvalid, h.next, h.alphabet⟩

theorem Refines.addFinal (h : d.Refines f) (hadd : d.addFinal s = .ok d') : d'.Refines f := by
  have hvalid := h.valid.addFinal hadd
  obtain ⟨-, rfl⟩ := addFinal_eq_ok_iff.mp hadd
  exact ⟨hvalid, h.next, h.alphabet⟩

theorem Refines.addSymbol (h : d.Refines f) (c : Char) :
    (d.addSymbol c).Refines (f.addLetter c) where
  valid := h.valid.addSymbol c
  next := h.next
  alphabet e := SortedSet.mem_insert.trans (or_congr_right (h.alphabet e))

/-- The new target takes the place of the one before, in the row and in the map; other
letters and other states are not concerned. -/
theorem Refines.addTransition (h : d.Refines f) (hadd : d.addTransition s c t = .ok d') :
    d'.Refines (f.put s c t) := by
  have hvalid := h.valid.addTransition hadd
  obtain ⟨hs, -, rfl⟩ := addTransition_eq_ok_iff.mp hadd
  refine ⟨hvalid, fun x e => ?_, fun e => ?_⟩
  · rw [nextOf_link hs, h.next]
    rfl
  · exact SortedSet.mem_insert.trans (or_congr_right (h.alphabet e))

/-- The two cases are those of the answer: the transition was there and is taken out, or
`s` leads elsewhere on `c` and the automaton stays as it is. -/
theorem Refines.deleteTransition (h : d.Refines f)
    (hdelete : d.deleteTransition s c t = .ok (d', found)) : d'.Refines (f.delete s c t) := by
  have hvalid := h.valid.deleteTransition hdelete
  obtain ⟨hs, hd'⟩ := deleteTransition_eq_ok_iff.mp hdelete
  rw [h.next] at hd'
  by_cases ht : f.next s c = some t
  · rw [if_pos ht] at hd'
    obtain ⟨rfl, -⟩ := Prod.mk.inj hd'
    refine ⟨hvalid, fun x e => ?_, h.alphabet⟩
    rw [nextOf_unlink hs, h.next]
    simp [PartialMap.delete, ht]
  · rw [if_neg ht] at hd'
    obtain ⟨rfl, -⟩ := Prod.mk.inj hd'
    refine ⟨hvalid, fun x e => ?_, h.alphabet⟩
    rw [h.next]
    simp [PartialMap.delete, ht]

/-- After any history the rows say what the map says, by induction on the history: one
case for each operation, and each says what that operation does to the map. -/
theorem History.refines (h : d.History f) : d.Refines f := by
  induction h with
  | empty => exact refines_empty
  | addState label _ ih => exact ih.addState label
  | setStart _ hrun ih => exact ih.setStart hrun
  | addFinal _ hrun ih => exact ih.addFinal hrun
  | removeFinal s _ ih => exact ⟨ih.valid.removeFinal s, ih.next, ih.alphabet⟩
  | addSymbol c _ ih => exact ih.addSymbol c
  | addTransition _ hrun ih => exact ih.addTransition hrun
  | deleteTransition _ hrun ih => exact ih.deleteTransition hrun

/-- All questions about transitions are answered from the map. For each state and letter
there is one target at most, so the answers are given and not only described. -/
structure Represents (d : Dfa) (f : PartialMap) : Prop where
  transitions_sorted : d.transitions.Pairwise (Prod.Lex (· < ·) fun x y => x.1 < y.1)
  transitions_nodup : d.transitions.Nodup
  mem_transitions : ∀ s c t, (s, c, t) ∈ d.transitions ↔ f.next s c = some t
  next : ∀ s < d.stateCount, ∀ c, d.next s c = .ok (f.next s c)
  targets : ∀ s < d.stateCount, ∀ c, d.targets s c = .ok (f.next s c).toList
  hasTransitionOn : ∀ s < d.stateCount, ∀ c, d.hasTransitionOn s c = .ok (f.next s c).isSome
  deleteTransition : ∀ s < d.stateCount, ∀ c t, ∃ d',
    d.deleteTransition s c t = .ok (d', decide (f.next s c = some t)) ∧ d'.alphabet = d.alphabet
  alphabet : ∀ c, c ∈ d.alphabet ↔ c ∈ f.letters

/-- All answers come from the one of `next`. The order of pairs is by their letters alone,
as a row has a letter once only. -/
theorem Refines.represents (h : d.Refines f) : d.Represents f := by
  have hnext : ∀ s < d.stateCount, ∀ c, d.next s c = .ok (f.next s c) := fun s hs c => by
    rw [next_eq (h.valid.size_rows.symm ▸ hs), h.next]
  have htargets : ∀ s < d.stateCount, ∀ c, d.targets s c = .ok (f.next s c).toList :=
    fun s hs c => by
      rw [Dfa.targets, hnext s hs]
      rfl
  have hsorted : d.transitions.Pairwise (Prod.Lex (· < ·) fun x y => x.1 < y.1) :=
    pairwise_transitions fun row _ => row.sorted
  have hirrefl : Std.Irrefl fun x y : Char × Nat => x.1 < y.1 := ⟨fun x => Char.lt_irrefl x.1⟩
  refine {
    transitions_sorted := hsorted
    transitions_nodup := hsorted.nodup
    mem_transitions := fun s c t => mem_transitions_iff.trans (by rw [h.next])
    next := hnext
    targets := htargets
    hasTransitionOn := fun s hs c => ?_
    deleteTransition := fun s hs c t => ?_
    alphabet := h.alphabet }
  · rw [Dfa.hasTransitionOn, htargets s hs]
    cases f.next s c <;> rfl
  · -- the answer is that of `next`, and only then is the transition taken out
    rw [deleteTransition_eq (h.valid.size_rows.symm ▸ hs), h.next]
    by_cases ht : f.next s c = some t
    · rw [if_pos ht, decide_eq_true ht]
      exact ⟨_, rfl, rfl⟩
    · rw [if_neg ht, decide_eq_false ht]
      exact ⟨_, rfl, rfl⟩

end Dfa

-- ---------------------------------------------------------------------------
-- Both kinds
-- ---------------------------------------------------------------------------

/-- **Histories of edits**: after any operations that succeed, an automaton is asked about
its transitions as if it were a set of triples, or a partial map in the deterministic
case. The set or map is read off the history alone, and what was deleted is not in it. -/
theorem histories_represented :
    (∀ (n : Nfa) (r : Triples), n.History r → n.Represents r) ∧
      ∀ (d : Dfa) (f : PartialMap), d.History f → d.Represents f :=
  ⟨fun _ _ h => h.refines.represents, fun _ _ h => h.refines.represents⟩

/-- Two states and a transition between them are made by five operations, none of which is
refused. It serves as the operand of a merge in the example below. -/
theorem Nfa.arrow_history {n : Nfa} {first last : String} {c : Char}
    (h : arrow first c last = .ok n) :
    n.History (({} : Triples).add (({} : Nfa).addState first).2 (.char c)
      ((({} : Nfa).addState first).1.addState last).2) := by
  obtain ⟨_, hstart, h⟩ := bind_eq_ok.mp h
  obtain ⟨_, hfinal, hc⟩ := bind_eq_ok.mp h
  have hstates := (History.empty.addState first).addState last
  exact ((hstates.setStart hstart).addFinal hfinal).addTransition hc

/-- An arrow absorbs another one and loses its transition. Then a transition takes the place of
one before, which is not there to be deleted any more. -/
theorem histories_represented_of_absorb_and_replacement :
    (∃ l m n n' : Nfa, Nfa.arrow "p" 'a' "q" = .ok l ∧ Nfa.arrow "r" 'b' "s" = .ok m ∧
      l.absorb m = .ok (n, 2) ∧ n.deleteTransition 0 (.char 'a') 1 = .ok (n', true) ∧
      n'.Represents (((({} : Triples).add 0 (.char 'a') 1).absorb 2
        (({} : Triples).add 0 (.char 'b') 1)).delete 0 (.char 'a') 1)) ∧
    ∃ d d' d'' : Dfa,
      ((({} : Dfa).addState "p").1.addState "q").1.addTransition 0 'a' 1 = .ok d ∧
      d.addTransition 0 'a' 0 = .ok d' ∧ d'.deleteTransition 0 'a' 1 = .ok (d'', false) ∧
      d''.Represents (((({} : PartialMap).put 0 'a' 1).put 0 'a' 0).delete 0 'a' 1) := by
  have hnfa : (do
      let l ← Nfa.arrow "p" 'a' "q"
      let m ← Nfa.arrow "r" 'b' "s"
      let absorbed ← l.absorb m
      let deleted ← absorbed.1.deleteTransition 0 (.char 'a') 1
      return (absorbed.2, deleted.2)) = .ok (2, true) := by cbv
  have hdfa : (do
      let d ← ((({} : Dfa).addState "p").1.addState "q").1.addTransition 0 'a' 1
      let d' ← d.addTransition 0 'a' 0
      let deleted ← d'.deleteTransition 0 'a' 1
      return deleted.2) = .ok false := by cbv
  -- Both runs are computed once, and then taken apart into their steps, of which each one
  -- extends the history.
  obtain ⟨l, hl, hnfa⟩ := bind_eq_ok.mp hnfa
  obtain ⟨m, hm, hnfa⟩ := bind_eq_ok.mp hnfa
  obtain ⟨⟨n, offset⟩, hn, hnfa⟩ := bind_eq_ok.mp hnfa
  obtain ⟨⟨n', found⟩, hn', hnfa⟩ := bind_eq_ok.mp hnfa
  obtain ⟨rfl, rfl⟩ := Prod.mk.inj (Except.ok.inj hnfa)
  obtain ⟨d, hd, hdfa⟩ := bind_eq_ok.mp hdfa
  obtain ⟨d', hd', hdfa⟩ := bind_eq_ok.mp hdfa
  obtain ⟨⟨d'', found⟩, hd'', hdfa⟩ := bind_eq_ok.mp hdfa
  obtain rfl := Except.ok.inj hdfa
  refine ⟨⟨l, m, n, n', hl, hm, hn, hn', ?_⟩, d, d', d'', hd, hd', hd'', ?_⟩
  · have hcount : l.stateCount = 2 := by
      obtain ⟨-, -, -, hcount⟩ := Nfa.absorb_eq_ok_iff.mp hn
      exact hcount
    have hmerged := (Nfa.arrow_history hl).absorb (Nfa.arrow_history hm) hn
    rw [hcount] at hmerged
    exact histories_represented.1 n' _ (hmerged.deleteTransition hn')
  · have hstates := (Dfa.History.empty.addState "p").addState "q"
    refine histories_represented.2 d'' _ ?_
    exact ((hstates.addTransition hd).addTransition hd').deleteTransition hd''

end PatternAutomata
