import PatternAutomata.Proofs.Automaton.Built

/-!
# Pattern automata — fragments fit together

A construction is a run of the operations on automata, whatever the list of nodes
that it goes along. So nothing has to be known about a tree: if its fragments are
made at all, each fits together, and so does the automaton of the root.

## Results

* `yields_nodes`             — every fragment that a list of nodes leaves behind fits together.
* `ParseTree.thompson_valid` — the automaton of any tree does, if it is made at all.
-/

namespace PatternAutomata

namespace Workshop

variable {α β γ : Type} {P : α → Prop} {Q : β → Prop} {f : α → Build β} {n l r : Nfa}
  {slots : Slots Nfa}

-- ---------------------------------------------------------------------------
-- Steps
-- ---------------------------------------------------------------------------

/-- Whenever the step succeeds, what it makes has the property. Nothing is said of whether
it succeeds, so that no premise on fragments and labels is needed. -/
def Yields (x : Build α) (P : α → Prop) : Prop :=
  ∀ w a w', x.run w = .ok (a, w') → P a

theorem yields_pure {a : α} (ha : P a) : Yields (pure a : Build α) P := by
  intro w a' w' h
  cases h
  exact ha

/-- An operation on automata is a step that leaves the workshop as it is, so only its
automaton has to be looked at. -/
theorem yields_lift {x : Except Fault α} (hx : ∀ a, x = .ok a → P a) :
    Yields (liftM x : Build α) P := by
  intro w a w' h
  cases x with
  | error fault => exact nomatch h
  | ok a =>
    cases h
    exact hx a rfl

/-- Two steps in turn: the second one may rely on what the first one makes. -/
theorem Yields.bind {x : Build α} (hx : Yields x P) (hf : ∀ a, P a → Yields (f a) Q) :
    Yields (x >>= f) Q := by
  intro w b w' h
  rw [StateT.run_bind] at h
  obtain ⟨⟨a, w₁⟩, hfirst, hsecond⟩ := bind_eq_ok.mp h
  exact hf a (hx w a w₁ hfirst) w₁ b w' hsecond

/-- An operation on an automaton before the other steps. -/
theorem Yields.lift_bind {x : Except Fault α} (hf : ∀ a, x = .ok a → Yields (f a) Q) :
    Yields (liftM x >>= f) Q :=
  (yields_lift fun _ hx => hx).bind hf

/-- A loop keeps what each of its rounds keeps. -/
theorem yields_foldlM {g : β → γ → Build β} (hg : ∀ b c, Q b → Yields (g b c) Q) (list : List γ)
    {b : β} (hb : Q b) : Yields (list.foldlM g b) Q := by
  induction list generalizing b with
  | nil => exact yields_pure hb
  | cons c list ih =>
    rw [List.foldlM_cons]
    exact (hg b c hb).bind fun _ => ih

theorem yields_fresh (hn : n.Valid) : Yields (fresh n) (·.1.Valid) := by
  intro w made w' h
  cases h
  exact hn.addState _

theorem yields_log (e : Event) : Yields (log e) fun _ => True :=
  fun _ _ _ _ => trivial

theorem joinAll_valid {sources : List Nat} {target : Nat} {n' : Nfa} (hn : n.Valid)
    (h : joinAll n sources target = .ok n') : n'.Valid :=
  foldlM_invariant (fun _ _ _ hn h => hn.addTransition h) hn h

-- ---------------------------------------------------------------------------
-- Combinators
-- ---------------------------------------------------------------------------

theorem yields_atom (a : Symbol) : Yields (atom a) Nfa.Valid := by
  refine (yields_fresh (Nfa.valid_empty ∅)).bind fun _ hn => (yields_fresh hn).bind fun _ hn => ?_
  refine .lift_bind fun _ hedge => .lift_bind fun _ hstart => yields_lift fun _ hfinal => ?_
  exact ((hn.addTransition hedge).setStart hstart).addFinal hfinal

/-- Two states are added to the fragment, and transitions from its final states, which are
final no more. -/
theorem yields_star (hn : n.Valid) : Yields (star n) Nfa.Valid := by
  refine .lift_bind fun _ _ => ?_
  refine (yields_fresh hn).bind fun _ hn => (yields_fresh hn).bind fun _ hn => ?_
  -- the loop over the old final states adds two transitions at each
  refine (yields_foldlM (fun _ _ hn => ?_) _ hn.clearFinals).bind fun _ hn => ?_
  · refine .lift_bind fun _ hback => yields_lift fun _ hout => ?_
    exact (hn.addTransition hback).addTransition hout
  · refine .lift_bind fun _ hin => .lift_bind fun _ hskip => ?_
    refine .lift_bind fun _ hstart => yields_lift fun _ hfinal => ?_
    exact (((hn.addTransition hin).addTransition hskip).setStart hstart).addFinal hfinal

/-- Transitions lead from the one fragment to the other within the merged automaton. -/
theorem yields_concat (hl : l.Valid) (hr : r.Valid) : Yields (concat l r) Nfa.Valid := by
  refine .lift_bind fun _ _ => .lift_bind fun _ hmerged => .lift_bind fun _ hjoined => ?_
  have hn := joinAll_valid (hl.absorb hr hmerged).clearFinals hjoined
  exact yields_foldlM (fun _ _ hn => yields_lift fun _ hfinal => hn.addFinal hfinal) _ hn

/-- The merged automaton gets two states and transitions between these and the fragments.
Every step of it is one of the operations, and each keeps an automaton valid. -/
theorem yields_union (hl : l.Valid) (hr : r.Valid) : Yields (union l r) Nfa.Valid := by
  refine .lift_bind fun _ _ => .lift_bind fun _ _ => .lift_bind fun _ hmerged => ?_
  refine (yields_fresh (hl.absorb hr hmerged)).bind fun _ hn => ?_
  refine (yields_fresh hn).bind fun _ hn => ?_
  refine .lift_bind fun _ hjoined => .lift_bind fun _ hleft => .lift_bind fun _ hright => ?_
  refine .lift_bind fun _ hstart => yields_lift fun _ hfinal => ?_
  have hn := joinAll_valid hn.clearFinals hjoined
  exact (((hn.addTransition hleft).addTransition hright).setStart hstart).addFinal hfinal

theorem yields_shuffle (l r : Nfa) : Yields (shuffle l r) Nfa.Valid :=
  .lift_bind fun _ hproduct => (yields_log _).bind fun _ _ =>
    yields_pure (Nfa.interleave_valid hproduct)

-- ---------------------------------------------------------------------------
-- Nodes
-- ---------------------------------------------------------------------------

/-- All fragments that are waiting for their parents fit together. -/
def SlotsValid (slots : Slots Nfa) : Prop := ∀ n, some n ∈ slots → n.Valid

/-- The fragment of one more node. -/
theorem SlotsValid.push (hslots : SlotsValid slots) (hn : n.Valid) :
    SlotsValid (slots.push n) := by
  intro m hm
  rcases Array.mem_push.mp hm with hm | hm
  · exact hslots m hm
  · exact Option.some.inj hm ▸ hn

/-- A fragment that is taken out is valid, and so are those that stay. Its slot is left
empty. -/
theorem SlotsValid.takeChild {rest : Slots Nfa} {parent child : Nat} (hslots : SlotsValid slots)
    (h : takeChild slots parent child = .ok (n, rest)) : n.Valid ∧ SlotsValid rest := by
  unfold Workshop.takeChild at h
  split at h
  · rename_i n' rest' htake
    obtain ⟨rfl, rfl⟩ := Prod.mk.inj (Except.ok.inj h)
    obtain ⟨hchild, rfl⟩ := Prod.mk.inj htake
    have hmem : slots[child]? = some (some n') := Option.join_eq_some_iff.mp hchild
    refine ⟨hslots n' (Array.mem_of_getElem? hmem), fun m hm => ?_⟩
    rcases Array.mem_or_eq_of_mem_setIfInBounds hm with hm | hm
    · exact hslots m hm
    · exact nomatch hm
  · exact nomatch h

/-- Taking two fragments and putting one in their place. -/
theorem yields_binary {combine : Nfa → Nfa → Build Nfa}
    (h : ∀ l r, l.Valid → r.Valid → Yields (combine l r) Nfa.Valid) (hslots : SlotsValid slots)
    (id i j : Nat) : Yields (binary combine slots id i j) SlotsValid :=
  .lift_bind fun _ hleft => .lift_bind fun _ hright =>
    (h _ _ (hslots.takeChild hleft).1 ((hslots.takeChild hleft).2.takeChild hright).1).bind
      fun _ hn => yields_pure (((hslots.takeChild hleft).2.takeChild hright).2.push hn)

/-- Each node is a combinator, on the fragments of its children. These come out of the
slots, where all fragments are valid. -/
theorem yields_node (hslots : SlotsValid slots) (id : Nat) (top : Node) :
    Yields (node slots id top) SlotsValid := by
  cases top with
  | char | epsilon | endMarker =>
    exact (yields_atom _).bind fun _ hn => yields_pure (hslots.push hn)
  | concat i j => exact yields_binary (fun _ _ => yields_concat) hslots id i j
  | union i j => exact yields_binary (fun _ _ => yields_union) hslots id i j
  | shuffle i j => exact yields_binary (fun l r _ _ => yields_shuffle l r) hslots id i j
  | star i =>
    exact .lift_bind fun _ hbody => (yields_star (hslots.takeChild hbody).1).bind
      fun _ hn => yields_pure ((hslots.takeChild hbody).2.push hn)

/-- Every fragment that a list of nodes leaves behind fits together, by induction on the
list. -/
theorem yields_nodes (hslots : SlotsValid slots) (id : Nat) (list : List Node) :
    Yields (nodes slots id list) SlotsValid := by
  induction list generalizing slots id with
  | nil => exact yields_pure hslots
  | cons top rest ih => exact (yields_node hslots id top).bind fun _ hslots => ih hslots (id + 1)

theorem yields_tree (t : ParseTree) : Yields (tree t) Nfa.Valid := by
  have hempty : SlotsValid #[] := fun n hn => absurd hn (Array.not_mem_empty _)
  exact (yields_nodes hempty 0 t.nodes).bind fun _ hslots => .lift_bind fun _ hroot =>
    (yields_log _).bind fun _ _ => yields_pure (hslots.takeChild hroot).1

end Workshop

/-- The automaton of any tree fits together, if it is made at all. The tree may be any
list of nodes, also one that no pattern has. -/
theorem ParseTree.thompson_valid {t : ParseTree} {n : Nfa} (h : t.thompson = .ok n) :
    n.Valid := by
  obtain ⟨⟨n', events⟩, hlogged, hn⟩ := bind_eq_ok.mp h
  obtain ⟨⟨n'', w⟩, hrun, hpair⟩ := bind_eq_ok.mp hlogged
  cases hn
  cases hpair
  exact Workshop.yields_tree t {} _ _ hrun

end PatternAutomata
