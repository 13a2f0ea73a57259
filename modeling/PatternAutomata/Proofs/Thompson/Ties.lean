import PatternAutomata.Proofs.ParseTree.WellFormed
import PatternAutomata.Proofs.Parser.RoundTrip
import PatternAutomata.Proofs.Positions.Follow
import PatternAutomata.Proofs.Thompson.Fragments

/-!
# Pattern automata — ties through the construction

An interleaving ties each of its moves to the operand that was held. What is made
of a product later adds states and edges and raises numbers, and a product of
products is made of the moves of its operands and has ties of its own. The ties
that an automaton has at the end are still those of its moves: a tie is between two
pairs that share one member, one that an edge joins, and every such edge is tied.

For the other direction no edge that star, concatenation or union adds may join two
pairs that share a member. Such an edge leads from a final state of a fragment to
the start of the same fragment, or joins states whose names are over different
numbers. So it is enough that the start and the final states of every fragment have
nothing in common (`Apart`).

## Results

* `Apart.of_numbers` — names over different numbers have nothing in common.
* `Assembled.tied`   — what fragments have when edges between unrelated states are added.
* `Made.tied`        — so every fragment is tied rightly.
* `Made.exists_tie`  — and has ties, if anything in it is interleaved.
* `thompson_tiesExact`    — the ties of Thompson's automaton.
-/

namespace PatternAutomata

-- ---------------------------------------------------------------------------
-- Pairs that agree
-- ---------------------------------------------------------------------------

/-- The text is the name of a state, over any numbers. -/
abbrev IsName : String → Prop := StateName fun _ => True

/-- Both labels are those of pairs, and their members on this side are the same. The
members are names, without which a text could be read as a pair in several ways. -/
inductive AgreeIn : Side → String → String → Prop
  | left {x y y' : String} : IsName x → IsName y → IsName y' →
      AgreeIn .left (pairText x y) (pairText x y')
  | right {x x' y : String} : IsName x → IsName x' → IsName y →
      AgreeIn .right (pairText x y) (pairText x' y)

/-- They agree on this side and on no other. -/
def AgreeOnlyIn (held : Side) (x y : String) : Prop := ∀ side, AgreeIn side x y ↔ side = held

/-- The labels differ, and they are not those of pairs that agree on any side. An edge
between states with such labels cannot be mistaken for a move of a product. -/
def Apart (x y : String) : Prop := x ≠ y ∧ ∀ side, ¬ AgreeIn side x y

section Agree

variable {P Q : Nat → Prop} {side held : Side} {x x' y y' : String}

theorem AgreeIn.symm (h : AgreeIn side x y) : AgreeIn side y x := by
  cases h with
  | left hx hy hy' => exact .left hx hy' hy
  | right hx hx' hy => exact .right hx' hx hy

theorem Apart.symm (h : Apart x y) : Apart y x :=
  ⟨h.1.symm, fun side hagree => h.2 side hagree.symm⟩

theorem Apart.not_agreeOnlyIn (h : Apart x y) : ¬ AgreeOnlyIn held x y :=
  fun hagree => h.2 held ((hagree held).mpr rfl)

/-- Of labels that are known to be pairs of names, agreement on the left is that of the
left members. -/
theorem agreeIn_left_iff (hx : IsName x) (hy : IsName y) (hx' : IsName x') (hy' : IsName y') :
    AgreeIn .left (pairText x y) (pairText x' y') ↔ x = x' := by
  constructor
  · intro h
    -- the labels are read as pairs a second time, and there is one way to do so
    generalize hu : pairText x y = u at h
    generalize hv : pairText x' y' = v at h
    cases h with
    | left ha hb hb' =>
      exact (pairText_inj hx hy ha hb hu).1.trans (pairText_inj hx' hy' ha hb' hv).1.symm
  · rintro rfl
    exact .left hx hy hy'

/-- And on the right it is that of the right members. The two sides are proved apart, as
agreement is said of names and not of pairs. -/
theorem agreeIn_right_iff (hx : IsName x) (hy : IsName y) (hx' : IsName x') (hy' : IsName y') :
    AgreeIn .right (pairText x y) (pairText x' y') ↔ y = y' := by
  constructor
  · intro h
    generalize hu : pairText x y = u at h
    generalize hv : pairText x' y' = v at h
    cases h with
    | right ha ha' hb =>
      exact (pairText_inj hx hy ha hb hu).2.trans (pairText_inj hx' hy' ha' hb hv).2.symm
  · rintro rfl
    exact .right hx hx' hy

/-- The members of a pair have names over the numbers that the name of the pair is over. A
fresh name is no pair, so only one of the two ways to have a name is left. -/
theorem StateName.members (h : StateName P (pairText x y)) (hx : IsName x) (hy : IsName y) :
    StateName P x ∧ StateName P y := by
  generalize hu : pairText x y = u at h
  cases h with
  | fresh hi =>
    have hlists := congrArg String.toList hu
    rw [toList_pairText, toList_freshLabel] at hlists
    -- a fresh label does not begin with a parenthesis
    exact absurd (List.cons.inj hlists).1 (by decide)
  | pair hx' hy' =>
    obtain ⟨rfl, rfl⟩ := pairText_inj hx hy (hx'.mono fun _ _ => trivial)
      (hy'.mono fun _ _ => trivial) hu
    exact ⟨hx', hy'⟩

/-- Names over different numbers have nothing in common: a name is over some number, and
so is a member of a pair of names. -/
theorem Apart.of_numbers (hx : StateName P x) (hy : StateName Q y) (h : ∀ i, P i → ¬ Q i) :
    Apart x y := by
  have hdiffer : ∀ z, StateName P z → ¬ StateName Q z := by
    intro z hz hz'
    obtain ⟨i, hi, hi'⟩ := hz.numbers_meet hz'
    exact h i hi hi'
  constructor
  · rintro rfl
    exact hdiffer x hx hy
  intro side hagree
  cases hagree with
  | left ha hb hb' => exact hdiffer _ (hx.members ha hb).1 (hy.members ha hb').1
  | right ha ha' hb => exact hdiffer _ (hx.members ha hb).2 (hy.members ha' hb).2

/-- Pairs both of whose members differ are apart: they are not the same, and agree on
neither side. -/
theorem Apart.pair (hx : IsName x) (hy : IsName y) (hx' : IsName x') (hy' : IsName y')
    (hleft : x ≠ x') (hright : y ≠ y') : Apart (pairText x y) (pairText x' y') := by
  constructor
  · intro h
    exact hleft (pairText_inj hx hy hx' hy' h).1
  intro side hagree
  cases side with
  | left => exact hleft ((agreeIn_left_iff hx hy hx' hy').mp hagree)
  | right => exact hright ((agreeIn_right_iff hx hy hx' hy').mp hagree)

/-- Pairs that differ in the left member agree in the right one only, so `.right` is the
one side that can be held. -/
theorem agreeOnlyIn_right (hx : IsName x) (hy : IsName y) (hx' : IsName x') (h : x ≠ x') :
    AgreeOnlyIn held (pairText x y) (pairText x' y) ↔ held = .right := by
  have hsides : ∀ side, AgreeIn side (pairText x y) (pairText x' y) ↔ side = .right := by
    intro side
    cases side with
    | left => simpa [agreeIn_left_iff hx hy hx' hy] using h
    | right => simp [agreeIn_right_iff hx hy hx' hy]
  constructor
  · exact fun hagree => (hsides held).mp ((hagree held).mpr rfl)
  · rintro rfl
    exact hsides

/-- The same where the left member is the one that stays: `.left` is the one side that can
be held. -/
theorem agreeOnlyIn_left (hx : IsName x) (hy : IsName y) (hy' : IsName y') (h : y ≠ y') :
    AgreeOnlyIn held (pairText x y) (pairText x y') ↔ held = .left := by
  have hsides : ∀ side, AgreeIn side (pairText x y) (pairText x y') ↔ side = .left := by
    intro side
    cases side with
    | left => simp [agreeIn_left_iff hx hy hx hy']
    | right => simpa [agreeIn_right_iff hx hy hx hy'] using h
  constructor
  · exact fun hagree => (hsides held).mp ((hagree held).mpr rfl)
  · rintro rfl
    exact hsides

end Agree

-- ---------------------------------------------------------------------------
-- Tied automata
-- ---------------------------------------------------------------------------

namespace Nfa

variable {n l r : Nfa} {origin : Nat × Nat} {s t : Nat}

/-- The ties are those edges between states labelled by pairs that hold one member. No
edge leads back to its source: it would join a pair to itself, and so hold both members. -/
structure Tied (n : Nfa) : Prop where
  sound : ∀ tie ∈ n.ties, AgreeOnlyIn tie.held (n.nameOf tie.source) (n.nameOf tie.target) ∧
    ∃ a, n.Edge tie.source a tie.target
  complete : ∀ s a t held, n.Edge s a t → AgreeOnlyIn held (n.nameOf s) (n.nameOf t) →
    { source := s, target := t, held := held } ∈ n.ties
  not_loop : ∀ s a, ¬ n.Edge s a s

/-- The start and the final states have nothing in common. A repetition joins the one to
the other, and this is what keeps its edges from looking like moves of a product. -/
def EndsApart (n : Nfa) : Prop :=
  ∀ s, n.start = some s → ∀ f ∈ n.finals, Apart (n.nameOf s) (n.nameOf f)

theorem EndsApart.start_ne (h : n.EndsApart) (hs : n.start = some s) (ht : t ∈ n.finals) :
    n.nameOf s ≠ n.nameOf t := (h s hs t ht).1

/-- The automaton is put together from parts, each with all its numbers raised. It has the
labels, edges and ties of the parts, and all that it has besides are edges between states
that have nothing in common. -/
structure Assembled (parts : List (Nfa × Nat)) (n : Nfa) : Prop where
  nameOf : ∀ p ∈ parts, ∀ s < p.1.stateCount, n.nameOf (s + p.2) = p.1.nameOf s
  part_edge : ∀ p ∈ parts, ∀ s a t, p.1.Edge s a t → n.Edge (s + p.2) a (t + p.2)
  part_tie : ∀ p ∈ parts, ∀ tie ∈ p.1.ties, raiseTie p.2 tie ∈ n.ties
  edge : ∀ x a y, n.Edge x a y →
    (∃ p ∈ parts, ∃ s t, p.1.Edge s a t ∧ x = s + p.2 ∧ y = t + p.2) ∨
      Apart (n.nameOf x) (n.nameOf y)
  ties : ∀ tie ∈ n.ties, ∃ p ∈ parts, ∃ tie' ∈ p.1.ties, tie = raiseTie p.2 tie'

/-- An automaton that is put together from tied parts is tied. A tie comes from a part,
where it is one of a move, and raising it changes no label. An edge that agrees with a tie
comes from a part as well, as all the others are between states that are apart, and there
it is tied. -/
theorem Assembled.tied {parts : List (Nfa × Nat)} (h : Assembled parts n)
    (hvalid : ∀ p ∈ parts, p.1.Valid) (hparts : ∀ p ∈ parts, p.1.Tied) : n.Tied where
  sound tie htie := by
    obtain ⟨p, hp, tie', htie', rfl⟩ := h.ties tie htie
    obtain ⟨hagree, a, he⟩ := (hparts p hp).sound tie' htie'
    -- both ends have the labels that they have in the part
    have hsource := h.nameOf p hp _ ((hvalid p hp).source_lt he)
    have htarget := h.nameOf p hp _ ((hvalid p hp).edge_lt _ _ _ he)
    refine ⟨?_, a, h.part_edge p hp _ a _ he⟩
    show AgreeOnlyIn tie'.held (n.nameOf (tie'.source + p.2)) (n.nameOf (tie'.target + p.2))
    rwa [hsource, htarget]
  complete x a y held he hagree := by
    -- an edge of a part, or one that was added, which agrees with no tie
    rcases h.edge x a y he with ⟨p, hp, s, t, he', rfl, rfl⟩ | hapart
    · rw [h.nameOf p hp s ((hvalid p hp).source_lt he'),
        h.nameOf p hp t ((hvalid p hp).edge_lt _ _ _ he')] at hagree
      exact h.part_tie p hp _ ((hparts p hp).complete s a t held he' hagree)
    · exact absurd hagree hapart.not_agreeOnlyIn
  not_loop x a he := by
    rcases h.edge x a x he with ⟨p, hp, s, t, he', rfl, ht⟩ | hapart
    · obtain rfl := Nat.add_right_cancel ht
      exact (hparts p hp).not_loop s a he'
    · exact hapart.1 rfl

-- ---------------------------------------------------------------------------
-- Products
-- ---------------------------------------------------------------------------

section Product

variable (hl : l.Valid) (hr : r.Valid) (horigin : HasPair l r origin)
  (hnames : ∀ s < l.stateCount, IsName (l.nameOf s)) (hnames' : ∀ s < r.stateCount,
    IsName (r.nameOf s))

theorem IsProduct.nameOf {p : Nat × Nat} {x : Nat} (h : IsProduct l r origin n)
    (hx : (reachedPairs l r origin)[x]? = some p) : n.nameOf x = pairName l r p := by
  refine StateTable.nameOf_eq ?_
  rw [h.labels, List.getElem?_map, hx]
  rfl

include hnames hnames' in
/-- An edge that holds an operand joins pairs that agree in that operand only, since the
other one does not stay where it is. This is where loops have to be excluded. -/
theorem EdgeHolding.agreeOnlyIn_iff {p q : Nat × Nat} {held side : Side} {a : Symbol}
    (h : EdgeHolding l r side p a q) (hp : HasPair l r p) (hq : HasPair l r q) (hl : l.Tied)
    (hr : r.Tied) : AgreeOnlyIn held (pairName l r p) (pairName l r q) ↔ held = side := by
  unfold pairName
  cases side with
  | right =>
    obtain ⟨he, hsame⟩ := h
    rw [hsame]
    refine agreeOnlyIn_right (hnames _ hp.1) (hnames' _ hp.2) (hnames _ hq.1) ?_
    -- one label, one state: the operand that moves would have a loop
    intro hname
    rw [StateTable.nameOf_inj hp.1 hq.1 hname] at he
    exact hl.not_loop _ _ he
  | left =>
    obtain ⟨he, hsame⟩ := h
    rw [hsame]
    refine agreeOnlyIn_left (hnames _ hp.1) (hnames' _ hp.2) (hnames' _ hq.2) ?_
    intro hname
    rw [StateTable.nameOf_inj hp.2 hq.2 hname] at he
    exact hr.not_loop _ _ he

include hl hr horigin hnames hnames'

/-- A product is tied by its moves: the construction records one tie for each of them. The
ties of the operands are gone, as their states are. -/
theorem IsProduct.tied (h : IsProduct l r origin n) (htied : l.Tied) (htied' : r.Tied) :
    n.Tied := by
  have hexist : ∀ {x : Nat} {p}, (reachedPairs l r origin)[x]? = some p → HasPair l r p := by
    intro x p hx
    exact hasPair_of_mem_reachedPairs hl hr horigin (List.mem_of_getElem? hx)
  refine { sound := ?_, complete := ?_, not_loop := ?_ }
  · intro tie htie
    obtain ⟨p, q, a, hx, hy, he⟩ := (h.mem_ties_iff hl hr horigin).mp htie
    have hedge : n.Edge tie.source a tie.target :=
      (h.edge _ _ _).mpr ⟨p, q, hx, hy, pairEdge_iff.mpr ⟨_, he⟩⟩
    refine ⟨?_, a, hedge⟩
    rw [h.nameOf hx, h.nameOf hy]
    exact (he.agreeOnlyIn_iff hnames hnames' (hexist hx) (hexist hy) htied htied').mpr rfl
  · intro x a y held he hagree
    obtain ⟨p, q, hx, hy, hedge⟩ := (h.edge x a y).mp he
    obtain ⟨side, hside⟩ := pairEdge_iff.mp hedge
    rw [h.nameOf hx, h.nameOf hy] at hagree
    obtain rfl :=
      (hside.agreeOnlyIn_iff hnames hnames' (hexist hx) (hexist hy) htied htied').mp hagree
    exact (h.mem_ties_iff hl hr horigin).mpr ⟨p, q, a, hx, hy, hside⟩
  · -- no move leads from a pair to itself, as no operand has a loop
    intro x a he
    obtain ⟨p, q, hx, hy, hedge⟩ := (h.edge x a x).mp he
    obtain rfl := Option.some.inj (hx.symm.trans hy)
    rcases hedge with ⟨he, -⟩ | ⟨he, -⟩
    · exact htied.not_loop _ _ he
    · exact htied'.not_loop _ _ he

omit horigin in
/-- Its start and its final states differ in both members, since the operands' ends
differ. -/
theorem IsProduct.endsApart (h : IsProduct l r (s, t) n) (hs : l.start = some s)
    (ht : r.start = some t) (hends : l.EndsApart) (hends' : r.EndsApart) : n.EndsApart := by
  intro x hx y hy
  obtain rfl := Option.some.inj (h.start.symm.trans hx)
  obtain ⟨q, hq, hql, hqr⟩ := (h.mem_finals y).mp hy
  rw [h.nameOf getElem?_zero_reachedPairs, h.nameOf hq]
  exact .pair (hnames s (hl.start_lt s hs)) (hnames' t (hr.start_lt t ht))
    (hnames q.1 (hl.finals_lt q.1 hql)) (hnames' q.2 (hr.finals_lt q.2 hqr))
    (hends.start_ne hs hql) (hends'.start_ne ht hqr)

end Product

end Nfa

-- ---------------------------------------------------------------------------
-- Combinators
-- ---------------------------------------------------------------------------

namespace Workshop

variable {e e' : Expr (Letter × Nat)} {lo mid hi s t : Nat} {l r m n : Nfa} {extra : List String}
  {a : Symbol}

/-- The states of a fragment have names over its numbers. -/
theorem Fragment.name_numbers (h : Fragment e lo n hi) (hs : s < n.stateCount) :
    StateName (fun i => lo ≤ i ∧ i < hi) (n.nameOf s) :=
  h.names _ (StateTable.nameOf_mem hs)

theorem freshName (i : Nat) : StateName (· = i) (freshLabel i) := .fresh rfl

/-- Two fresh labels have nothing in common. -/
theorem apart_fresh (i : Nat) : Apart (freshLabel i) (freshLabel (i + 1)) :=
  .of_numbers (freshName i) (freshName (i + 1)) fun j hj hj' => by omega

/-- Nor has a label of a fragment with one that is made later. -/
theorem Fragment.apart_fresh {i : Nat} (h : Fragment e lo n hi) (hs : s < n.stateCount)
    (hi' : hi ≤ i) : Apart (n.nameOf s) (freshLabel i) :=
  .of_numbers (h.name_numbers hs) (freshName i) fun j hj hj' => by omega

/-- Nor have the labels of two fragments. -/
theorem Fragment.apart (hl : Fragment e lo l mid) (hr : Fragment e' mid r hi)
    (hs : s < l.stateCount) (ht : t < r.stateCount) : Apart (l.nameOf s) (r.nameOf t) :=
  .of_numbers (hl.name_numbers hs) (hr.name_numbers ht) fun j hj hj' => by omega

-- ---------------------------------------------------------------------------
-- Single transitions
-- ---------------------------------------------------------------------------

theorem IsAtom.nameOf (h : IsAtom a lo n) :
    n.nameOf 0 = freshLabel lo ∧ n.nameOf 1 = freshLabel (lo + 1) := by
  constructor <;> exact StateTable.nameOf_eq (by rw [h.labels]; rfl)

/-- The ends of an atom are fresh. -/
theorem IsAtom.endsApart (h : IsAtom a lo n) : n.EndsApart := by
  intro s hs f hf
  obtain rfl := Option.some.inj (h.start.symm.trans hs)
  obtain rfl := (h.mem_finals f).mp hf
  rw [h.nameOf.1, h.nameOf.2]
  exact Workshop.apart_fresh lo

/-- It is put together from nothing, and its one edge joins fresh states, which are apart
from each other. So it has no ties and needs none. -/
theorem IsAtom.assembled (h : IsAtom a lo n) : Nfa.Assembled [] n where
  nameOf := nofun
  part_edge := nofun
  part_tie := nofun
  edge x b y he := by
    obtain ⟨rfl, -, rfl⟩ := (h.edge x b y).mp he
    rw [h.nameOf.1, h.nameOf.2]
    exact .inr (Workshop.apart_fresh lo)
  ties tie htie := by simp [h.ties] at htie

-- ---------------------------------------------------------------------------
-- Repetition
-- ---------------------------------------------------------------------------

theorem IsStar.nameOf (h : IsStar m hi n) (hs : s < m.stateCount) : n.nameOf s = m.nameOf s :=
  StateTable.nameOf_eq (h.label (StateTable.getElem?_labels hs))

theorem IsStar.nameOf_fresh (h : IsStar m hi n) :
    n.nameOf m.stateCount = freshLabel hi ∧ n.nameOf (m.stateCount + 1) = freshLabel (hi + 1) := by
  have hcount : m.stateCount = m.labels.toList.length := StateTable.stateCount_eq rfl
  constructor <;> refine StateTable.nameOf_eq ?_ <;> simp [h.labels, hcount]

/-- The ends of a repetition are fresh. -/
theorem IsStar.endsApart (h : IsStar m hi n) : n.EndsApart := by
  intro s hs f hf
  obtain rfl := Option.some.inj (h.start.symm.trans hs)
  obtain rfl := (h.mem_finals f).mp hf
  rw [h.nameOf_fresh.1, h.nameOf_fresh.2]
  exact Workshop.apart_fresh hi

/-- Of the edges that a repetition adds, those between old states lead from a final state back to
the start, and all others have a fresh end. -/
theorem IsStar.assembled (hm : Fragment e lo m hi) (hends : m.EndsApart) (h : IsStar m hi n) :
    Nfa.Assembled [(m, 0)] n where
  nameOf p hp s hs := by
    obtain rfl := List.mem_singleton.mp hp
    exact h.nameOf hs
  part_edge p hp s b t he := by
    obtain rfl := List.mem_singleton.mp hp
    exact (h.edge s b t).mpr (.inl he)
  part_tie p hp tie htie := by
    obtain rfl := List.mem_singleton.mp hp
    exact h.ties ▸ htie
  edge x b y he := by
    rcases (h.edge x b y).mp he with he | ⟨-, hx, hy⟩
    · exact .inl ⟨_, List.mem_singleton_self _, x, y, he, rfl, rfl⟩
    refine .inr ?_
    have hfinal : ∀ {f}, f ∈ m.finals → f < m.stateCount := fun hf => hm.valid.finals_lt _ hf
    -- from an old final state or the new start, to the old start or the new final state
    rcases hx with hx | rfl <;> rcases hy with hy | rfl
    · have hlt := hm.valid.start_lt y hy
      rw [h.nameOf (hfinal hx), h.nameOf hlt]
      exact (hends y hy x hx).symm
    · rw [h.nameOf (hfinal hx), h.nameOf_fresh.2]
      exact hm.apart_fresh (hfinal hx) (by omega)
    · have hlt := hm.valid.start_lt y hy
      rw [h.nameOf_fresh.1, h.nameOf hlt]
      exact (hm.apart_fresh hlt (by omega)).symm
    · rw [h.nameOf_fresh.1, h.nameOf_fresh.2]
      exact Workshop.apart_fresh hi
  ties tie htie := ⟨_, List.mem_singleton_self _, tie, h.ties ▸ htie, rfl⟩

-- ---------------------------------------------------------------------------
-- Two operands
-- ---------------------------------------------------------------------------

theorem IsMerge.nameOf_left (h : IsMerge l r extra n) (hs : s < l.stateCount) :
    n.nameOf s = l.nameOf s :=
  StateTable.nameOf_eq (h.label_left (StateTable.getElem?_labels hs))

theorem IsMerge.nameOf_right (h : IsMerge l r extra n) (hs : s < r.stateCount) :
    n.nameOf (s + l.stateCount) = r.nameOf s :=
  StateTable.nameOf_eq (h.label_right (StateTable.getElem?_labels hs))

/-- A merge of operands is put together from them, if all other edges are between states that have
nothing in common. -/
theorem IsMerge.assembled (h : IsMerge l r extra n)
    (hleft : ∀ s a t, l.Edge s a t → n.Edge s a t)
    (hright : ∀ s a t, r.Edge s a t → n.Edge (s + l.stateCount) a (t + l.stateCount))
    (hedge : ∀ x a y, n.Edge x a y → l.Edge x a y ∨
      (∃ s t, r.Edge s a t ∧ x = s + l.stateCount ∧ y = t + l.stateCount) ∨
        Apart (n.nameOf x) (n.nameOf y)) :
    Nfa.Assembled [(l, 0), (r, l.stateCount)] n where
  nameOf := by
    simp only [List.forall_mem_cons]
    exact ⟨fun s hs => h.nameOf_left hs, fun s hs => h.nameOf_right hs, nofun⟩
  part_edge := by
    simp only [List.forall_mem_cons]
    exact ⟨hleft, hright, nofun⟩
  part_tie := by
    simp only [List.forall_mem_cons, h.ties, Array.mem_append]
    exact ⟨fun tie htie => .inl htie, fun tie htie => .inr (Array.mem_map_of_mem htie), nofun⟩
  edge x b y he := by
    rcases hedge x b y he with he | ⟨s, t, he, hx, hy⟩ | hapart
    · exact .inl ⟨(l, 0), by simp, x, y, he, rfl, rfl⟩
    · exact .inl ⟨(r, l.stateCount), by simp, s, t, he, hx, hy⟩
    · exact .inr hapart
  -- the ties are those of the left operand and those of the right one, raised
  ties tie htie := by
    rw [h.ties, Array.mem_append, Array.mem_map] at htie
    rcases htie with htie | ⟨tie', htie', rfl⟩
    · exact ⟨(l, 0), by simp, tie, htie, rfl⟩
    · exact ⟨(r, l.stateCount), by simp, tie', htie', rfl⟩

/-- The start is in the one operand and the final states are in the other, so their names
are over different numbers. -/
theorem IsConcat.endsApart (hl : Fragment e lo l mid) (hr : Fragment e' mid r hi)
    (h : IsConcat l r n) : n.EndsApart := by
  intro s hs f hf
  obtain ⟨t, ht, rfl⟩ := (h.mem_finals f).mp hf
  have hlt := hl.valid.start_lt s (h.start ▸ hs)
  have hlt' := hr.valid.finals_lt t ht
  rw [h.nameOf_left hlt, h.nameOf_right hlt']
  exact hl.apart hr hlt hlt'

/-- The edges that a concatenation adds lead from one operand to the other, whose numbers
are apart. -/
theorem IsConcat.assembled (hl : Fragment e lo l mid) (hr : Fragment e' mid r hi)
    (h : IsConcat l r n) : Nfa.Assembled [(l, 0), (r, l.stateCount)] n := by
  refine h.toIsMerge.assembled (fun s b t he => (h.edge s b t).mpr (.inl he))
    (fun s b t he => (h.edge _ b _).mpr (.inr (.inl ⟨s, t, he, rfl, rfl⟩))) ?_
  intro x b y he
  refine ((h.edge x b y).mp he).imp_right fun he => he.imp_right ?_
  rintro ⟨-, hx, s, hs, rfl⟩
  have hlt := hl.valid.finals_lt x hx
  have hlt' := hr.valid.start_lt s hs
  rw [h.nameOf_left hlt, h.nameOf_right hlt']
  exact hl.apart hr hlt hlt'

/-- The two new states of a union have fresh labels. -/
theorem IsUnion.nameOf_fresh (h : IsUnion l r hi n) :
    n.nameOf (l.stateCount + r.stateCount) = freshLabel hi ∧
      n.nameOf (l.stateCount + r.stateCount + 1) = freshLabel (hi + 1) := by
  have hcount : l.stateCount = l.labels.toList.length := StateTable.stateCount_eq rfl
  have hcount' : r.stateCount = r.labels.toList.length := StateTable.stateCount_eq rfl
  constructor <;> refine StateTable.nameOf_eq ?_ <;>
    simp [h.labels, hcount, hcount', Nat.add_assoc]

/-- The ends of a union are fresh. -/
theorem IsUnion.endsApart (h : IsUnion l r hi n) : n.EndsApart := by
  intro s hs f hf
  obtain rfl := Option.some.inj (h.start.symm.trans hs)
  obtain rfl := (h.mem_finals f).mp hf
  rw [h.nameOf_fresh.1, h.nameOf_fresh.2]
  exact Workshop.apart_fresh hi

/-- The edges that a union adds have one fresh end each, so none of them moves between
pairs with a member in common. The operands stand side by side in it, the right one
raised. -/
theorem IsUnion.assembled (hl : Fragment e lo l mid) (hr : Fragment e' mid r hi)
    (h : IsUnion l r hi n) : Nfa.Assembled [(l, 0), (r, l.stateCount)] n := by
  refine h.toIsMerge.assembled (fun s b t he => (h.edge s b t).mpr (.inl he))
    (fun s b t he => (h.edge _ b _).mpr (.inr (.inl ⟨s, t, he, rfl, rfl⟩))) ?_
  intro x b y he
  refine ((h.edge x b y).mp he).imp_right fun he => he.imp_right ?_
  -- an old state and a new one are apart
  have hleft : ∀ {s i}, s < l.stateCount → hi ≤ i → Apart (n.nameOf s) (freshLabel i) := by
    intro s i hs hi'
    rw [h.nameOf_left hs]
    exact hl.apart_fresh hs (Nat.le_trans hr.le hi')
  have hright : ∀ {s i}, s < r.stateCount → hi ≤ i →
      Apart (n.nameOf (s + l.stateCount)) (freshLabel i) := by
    intro s i hs hi'
    rw [h.nameOf_right hs]
    exact hr.apart_fresh hs hi'
  rintro ⟨-, ⟨hx | ⟨f, hf, rfl⟩, rfl⟩ | ⟨rfl, hy | ⟨s, hs, rfl⟩⟩⟩
  · rw [h.nameOf_fresh.2]
    exact hleft (hl.valid.finals_lt x hx) (by omega)
  · rw [h.nameOf_fresh.2]
    exact hright (hr.valid.finals_lt f hf) (by omega)
  · rw [h.nameOf_fresh.1]
    exact (hleft (hl.valid.start_lt y hy) (Nat.le_refl hi)).symm
  · rw [h.nameOf_fresh.1]
    exact (hright (hr.valid.start_lt s hs) (Nat.le_refl hi)).symm

-- ---------------------------------------------------------------------------
-- What is made
-- ---------------------------------------------------------------------------

/-- Two tied operands are put together to a tied automaton. -/
theorem tied_of_operands (hl : Fragment e lo l mid) (hr : Fragment e' mid r hi) (htied : l.Tied)
    (htied' : r.Tied) (h : Nfa.Assembled [(l, 0), (r, l.stateCount)] n) : n.Tied := by
  refine h.tied ?_ ?_
  · simp only [List.forall_mem_cons]
    exact ⟨hl.valid, hr.valid, nofun⟩
  · simp only [List.forall_mem_cons]
    exact ⟨htied, htied', nofun⟩

/-- Every fragment is tied, and its start and its final states have nothing in common. The
two go together in the induction: a repetition is tied because the ends of its body are
apart. -/
theorem Made.tied (h : Made e lo n hi) : n.Tied ∧ n.EndsApart := by
  induction h with
  | epsilon h | char h | endMarker h =>
    exact ⟨h.assembled.tied nofun nofun, h.endsApart⟩
  | concat hl hr h ihl ihr =>
    have hassembled := h.assembled hl.fragment hr.fragment
    exact ⟨tied_of_operands hl.fragment hr.fragment ihl.1 ihr.1 hassembled,
      h.endsApart hl.fragment hr.fragment⟩
  | union hl hr h ihl ihr =>
    have hassembled := h.assembled hl.fragment hr.fragment
    exact ⟨tied_of_operands hl.fragment hr.fragment ihl.1 ihr.1 hassembled, h.endsApart⟩
  | shuffle hl hr hs ht h ihl ihr =>
    have hvl := hl.fragment.valid
    have hvr := hr.fragment.valid
    have hnames := fun s (hs : s < _) => hl.fragment.nameOf (s := s) hs
    have hnames' := fun s (hs : s < _) => hr.fragment.nameOf (s := s) hs
    exact ⟨h.tied hvl hvr ⟨hvl.start_lt _ hs, hvr.start_lt _ ht⟩ hnames hnames' ihl.1 ihr.1,
      h.endsApart hvl hvr hnames hnames' hs ht ihl.2 ihr.2⟩
  -- the edge back joins the ends of the body, which have no name in common
  | star hm h ih =>
    refine ⟨(h.assembled hm.fragment ih.2).tied ?_ ?_, h.endsApart⟩
    · simpa using hm.fragment.valid
    · simpa using ih.1

/-- Some edge leads out of the start of a fragment: a word is accepted, and not by staying where
it begins, since the start is not final. -/
theorem Made.exists_edge_start (h : Made e lo n hi) :
    ∃ s a t, n.start = some s ∧ n.Edge s a t := by
  obtain ⟨w, hw⟩ := e.exists_matches (·.1.reads)
  obtain ⟨s, hs, f, hf, hp⟩ := (h.fragment.accepting w).mpr hw
  cases hp with
  | refl => exact absurd rfl (h.tied.2.start_ne hs hf)
  | @step s t f a v he hrest => exact ⟨s, a, t, hs, Nfa.mem_transitions_iff.mp he⟩

/-- An interleaving leaves ties behind, however deep in the expression it is. The pair that its
product starts at has a move, and what is made of the product afterwards keeps every tie. -/
theorem Made.exists_tie (h : Made e lo n hi) (hshuffle : ¬ e.Sequential) :
    ∃ tie, tie ∈ n.ties := by
  induction h with
  | epsilon h | char h | endMarker h => exact absurd trivial hshuffle
  | concat hl hr h ihl ihr | union hl hr h ihl ihr =>
    rcases Classical.not_and_iff_not_or_not.mp hshuffle with hleft | hright
    · obtain ⟨tie, htie⟩ := ihl hleft
      exact ⟨tie, h.ties ▸ Array.mem_append_left _ htie⟩
    · obtain ⟨tie, htie⟩ := ihr hright
      exact ⟨_, h.ties ▸ Array.mem_append_right _ (Array.mem_map_of_mem htie)⟩
  | @shuffle l r lo mid hi s t n m x hl hr hs ht h =>
    have hvl := hl.fragment.valid
    have hvr := hr.fragment.valid
    have horigin : Nfa.HasPair n m (s, t) := ⟨hvl.start_lt s hs, hvr.start_lt t ht⟩
    obtain ⟨s', a, u, hs', he⟩ := hl.exists_edge_start
    obtain rfl := Option.some.inj (hs.symm.trans hs')
    -- the left operand moves alone, so the right one is held
    have hedge : Nfa.EdgeHolding n m .right (s, t) a (u, t) := ⟨he, rfl⟩
    have hmem : (u, t) ∈ Nfa.reachedPairs n m (s, t) :=
      Nfa.mem_reachedPairs_of_edge hvl hvr horigin
        (List.mem_of_getElem? Nfa.getElem?_zero_reachedPairs) (Nfa.pairEdge_iff.mpr ⟨_, hedge⟩)
    obtain ⟨y, hy⟩ := List.getElem?_of_mem hmem
    exact ⟨{ source := 0, target := y, held := .right }, (h.mem_ties_iff hvl hvr horigin).mpr
      ⟨(s, t), (u, t), a, Nfa.getElem?_zero_reachedPairs, hy, hedge⟩⟩
  | star hm h ih =>
    obtain ⟨tie, htie⟩ := ih hshuffle
    exact ⟨tie, h.ties ▸ htie⟩

end Workshop

-- ---------------------------------------------------------------------------
-- Thompson's automaton
-- ---------------------------------------------------------------------------

/-- The ties of an automaton whose states have names of numbers and of pairs are exactly its
transitions between pairs that agree in one member. -/
structure Nfa.TiesExact (n : Nfa) : Prop where
  labelled : ∀ s < n.stateCount, ∃ x, n.label s = .ok x ∧ IsName x
  /-- A tie is between states that are pairs, agree in the member that is held and in no other one,
  and have a transition between them. -/
  sound : ∀ tie ∈ n.ties, ∃ x y, n.label tie.source = .ok x ∧ n.label tie.target = .ok y ∧
    AgreeOnlyIn tie.held x y ∧ ∃ a, (tie.source, a, tie.target) ∈ n.transitions
  /-- A transition between such states is tied. -/
  complete : ∀ s a t held x y, (s, a, t) ∈ n.transitions → n.label s = .ok x →
    n.label t = .ok y → AgreeOnlyIn held x y → { source := s, target := t, held := held } ∈ n.ties

/-- The automaton of a tree with interleavings has ties, so that what is said of ties is
said of something. -/
theorem ParseTree.exists_tie {pattern : String} {d : Dialect} {body : Expr Char} {n : Nfa}
    (hn : (ofExpr pattern d body).thompson = .ok n)
    (hshuffle : (ofExpr pattern d body).hasShuffle = true) : ∃ tie, tie ∈ n.ties := by
  obtain ⟨n', hi, hn', hmade⟩ := thompson_ofExpr pattern d body
  obtain rfl := Except.ok.inj (hn.symm.trans hn')
  refine hmade.exists_tie ?_
  rw [← hasShuffle_ofExpr_iff, hshuffle]
  exact nofun

/-- **Ties are exact**: those of the automaton of a pattern that compiles record just the
moves of its products that hold a state. Of a fragment this is known by names; here names
become labels that are asked for. -/
theorem thompson_tiesExact {o : Options} {pattern : String} {t : ParseTree}
    (h : compile o pattern = .ok t) : ∃ n, t.thompson = .ok n ∧ n.TiesExact := by
  obtain ⟨body, -, rfl⟩ := compile_eq_ok_iff.mp h
  obtain ⟨n, hi, hn, hmade⟩ := ParseTree.thompson_ofExpr pattern o.dialect body
  have hfragment := hmade.fragment
  have hlabel : ∀ {s}, s < n.stateCount → n.label s = .ok (n.nameOf s) := StateTable.label_eq_ok
  obtain ⟨⟨hsound, hcomplete, -⟩, -⟩ := hmade.tied
  refine ⟨n, hn, { labelled := ?_, sound := ?_, complete := ?_ }⟩
  · intro s hs
    exact ⟨_, hlabel hs, hfragment.nameOf hs⟩
  · intro tie htie
    obtain ⟨hagree, a, he⟩ := hsound tie htie
    obtain ⟨hsource, htarget⟩ := hfragment.ties_lt tie htie
    exact ⟨_, _, hlabel hsource, hlabel htarget, hagree, a, Nfa.mem_transitions_iff.mpr he⟩
  · -- the labels that were asked for are the names of the two states
    intro s a t held x y he hx hy hagree
    have hedge := Nfa.mem_transitions_iff.mp he
    obtain rfl := Except.ok.inj ((hlabel (hfragment.valid.source_lt hedge)).symm.trans hx)
    obtain rfl := Except.ok.inj ((hlabel (hfragment.valid.edge_lt _ _ _ hedge)).symm.trans hy)
    exact hcomplete s a t held hedge hagree

/-- With a repeated interleaving as an operand of another one, and one more behind it: ties are
there, so that both directions say something. -/
theorem thompson_tiesExact_of_nested_interleavings :
    ∃ t, compile { dialect := .parallel } "((a&b)*&c|d)(a&b)" = .ok t ∧
      ∃ n, t.thompson = .ok n ∧ (∃ tie, tie ∈ n.ties) ∧ n.TiesExact := by
  let inner : Expr Char := .shuffle (.leaf 'a') (.leaf 'b')
  let e : Expr Char :=
    .concat (.shuffle (.star inner) (.union (.leaf 'c') (.leaf 'd'))) inner
  have htext : String.ofList e.pattern = "((a&b)*&c|d)(a&b)" := by cbv
  have h : compile { dialect := .parallel } "((a&b)*&c|d)(a&b)" = .ok (.ofExpr _ .parallel e) :=
    compile_eq_ok_of_pattern htext (by decide) (by decide)
  have hshuffle : (ParseTree.ofExpr "((a&b)*&c|d)(a&b)" .parallel e).hasShuffle = true := by decide
  exact ⟨_, h, (thompson_tiesExact h).imp fun n hn =>
    ⟨hn.1, ParseTree.exists_tie hn.1 hshuffle, hn.2⟩⟩

end PatternAutomata
