import PatternAutomata.Proofs.Automaton.Interleave
import PatternAutomata.Proofs.Thompson.Combinators

/-!
# Pattern automata — what the fragments accept

A path through the fragment that a combinator makes is taken apart into paths
through its operands. Where a path can go next is decided by the region it is in:
an operand's states lie together, an edge leaves them only at a final state, and
the fragment's own start and final state are outside of all operands.

Each language is proved by one induction on a path to the final state, whose
statement says for every region what is left to read there.

## Results

* `IsAtom.accepting_iff`, `IsStar.accepting_iff`, `IsConcat.accepting_iff`,
  `IsUnion.accepting_iff` — the words of a fragment from those of its operands.
-/

namespace PatternAutomata

namespace Workshop

variable {l r m n : Nfa} {a : Symbol} {k s x y : Nat} {u v w : List Char}

-- ---------------------------------------------------------------------------
-- Single transitions
-- ---------------------------------------------------------------------------

/-- An atom reads what its transition does. From the start there is one transition, and
none from where it leads. -/
theorem IsAtom.accepting_iff (h : IsAtom a k n) : n.Accepting w ↔ w = a.reads := by
  -- what is left to read at each of the two states
  have hend : ∀ x w, n.Path x w 1 → (x = 0 → w = a.reads) ∧ (x = 1 → w = []) := by
    intro x w hp
    generalize hy : 1 = y at hp
    induction hp with
    | refl s =>
      subst hy
      exact ⟨nofun, fun _ => rfl⟩
    | @step s t u b w hmem _ ih =>
      obtain ⟨rfl, rfl, rfl⟩ := (h.edge s b t).mp (Nfa.mem_transitions_iff.mp hmem)
      subst hy
      rw [(ih rfl).2 rfl, List.append_nil]
      exact ⟨fun _ => rfl, nofun⟩
  constructor
  · rintro ⟨x, hx, y, hy, hp⟩
    rw [(h.mem_finals y).mp hy] at hp
    exact (hend x w hp).1 (Option.some.inj (hx.symm.trans h.start))
  · rintro rfl
    exact ⟨0, h.start, 1, (h.mem_finals 1).mpr rfl, .edge ((h.edge 0 a 1).mpr ⟨rfl, rfl, rfl⟩)⟩

-- ---------------------------------------------------------------------------
-- Repetition
-- ---------------------------------------------------------------------------

/-- From inside, the rest of a round is read and then some more rounds; from the start
state rounds only. The induction is on the path, and its three parts need each other: an
edge leads from one region to another. -/
theorem IsStar.rest (hm : m.Valid) (h : IsStar m k n) (hp : n.Path x w (m.stateCount + 1)) :
    (x = m.stateCount + 1 → w = []) ∧
      (x = m.stateCount → Repeated m.Accepting w) ∧
      (x < m.stateCount → ∃ t ∈ m.finals, ∃ u v,
        m.Path x u t ∧ Repeated m.Accepting v ∧ u ++ v = w) := by
  generalize hy : m.stateCount + 1 = y at hp
  induction hp with
  | refl s =>
    subst hy
    exact ⟨fun _ => rfl, fun hs => absurd hs (by omega), fun hs => absurd hs (by omega)⟩
  | @step x z y b w hmem _ ih =>
    obtain ⟨hfinal, -, hinside⟩ := ih hy
    -- a round that begins at `z` and all that comes after it
    have hround : b = .epsilon → m.start = some z ∨ z = m.stateCount + 1 →
        Repeated m.Accepting (b.reads ++ w) := by
      rintro rfl (hz | hz)
      · obtain ⟨t, ht, u, v, hu, hv, rfl⟩ := hinside (hm.start_lt z hz)
        show Repeated m.Accepting (u ++ v)
        exact hv.cons ⟨z, hz, t, ht, hu⟩
      · rw [hfinal (hz.trans hy)]
        exact repeated_nil
    -- an edge of the operand stays in the round; any other one ends a round, and begins
    -- one or stops
    rcases (h.edge x b z).mp (Nfa.mem_transitions_iff.mp hmem) with he | ⟨hb, hx, hz⟩
    · have hlt := hm.source_lt he
      refine ⟨fun hx => absurd hx (by omega), fun hx => absurd hx (by omega), fun _ => ?_⟩
      obtain ⟨t, ht, u, v, hu, hv, rfl⟩ := hinside (hm.edge_lt _ _ _ he)
      exact ⟨t, ht, b.reads ++ u, v, .cons he hu, hv, List.append_assoc ..⟩
    · refine ⟨fun hx' => ?_, fun _ => hround hb hz, fun _ => ?_⟩
      · rcases hx with hx | hx
        · have hlt := hm.finals_lt x hx
          omega
        · omega
      · rcases hx with hx | hx
        · exact ⟨x, hx, [], _, .refl x, hround hb hz, rfl⟩
        · omega

/-- A round goes as in the operand … -/
theorem IsStar.path_of_operand (h : IsStar m k n) (hp : m.Path x w y) : n.Path x w y :=
  hp.mono fun s a t he => (h.edge s a t).mpr (.inl he)

/-- … and before and after each there is the choice to begin one or to stop. -/
theorem IsStar.path_between (h : IsStar m k n) (hx : x ∈ m.finals ∨ x = m.stateCount)
    (hy : m.start = some y ∨ y = m.stateCount + 1) : n.Path x [] y :=
  .epsilon ((h.edge x .epsilon y).mpr (.inr ⟨rfl, hx, hy⟩))

/-- A repetition accepts any number of accepted words in turn. One direction goes along
the path, the other one puts it together round by round. -/
theorem IsStar.accepting_iff (hm : m.Valid) (h : IsStar m k n) :
    n.Accepting w ↔ Repeated m.Accepting w := by
  constructor
  · rintro ⟨x, hx, y, hy, hp⟩
    rw [(h.mem_finals y).mp hy] at hp
    exact (h.rest hm hp).2.1 (Option.some.inj (hx.symm.trans h.start))
  · rintro ⟨ws, hws, rfl⟩
    -- between rounds the path is at a final state of `m`, or still at the start
    have hrounds : ∀ x, x ∈ m.finals ∨ x = m.stateCount →
        n.Path x ws.flatten (m.stateCount + 1) := by
      induction ws with
      | nil =>
        intro x hx
        exact h.path_between hx (.inr rfl)
      | cons u ws ih =>
        intro x hx
        obtain ⟨z, hz, t, ht, hp⟩ := hws u List.mem_cons_self
        have hround : n.Path x u t :=
          (h.path_between hx (.inl hz)).after_nil (h.path_of_operand hp)
        exact hround.trans (ih (fun v hv => hws v (List.mem_cons_of_mem _ hv)) t (.inl ht))
    exact ⟨m.stateCount, h.start, _, (h.mem_finals _).mpr rfl, hrounds _ (.inr rfl)⟩

-- ---------------------------------------------------------------------------
-- Concatenation
-- ---------------------------------------------------------------------------

/-- From the left operand, its rest is read and then a word of the right one; from the
right operand its rest. No edge leads back, so there is one place where the path crosses
over. -/
theorem IsConcat.rest (hl : l.Valid) (h : IsConcat l r n)
    (hp : n.Path x w (y + l.stateCount)) :
    (∀ s, x = s + l.stateCount → r.Path s w y) ∧
      (x < l.stateCount → ∃ t ∈ l.finals, ∃ s, r.start = some s ∧ ∃ u v,
        l.Path x u t ∧ r.Path s v y ∧ u ++ v = w) := by
  generalize hz : y + l.stateCount = z at hp
  induction hp with
  | refl s =>
    refine ⟨fun s' hs => ?_, fun hs => absurd hs (by omega)⟩
    obtain rfl : s' = y := by omega
    exact .refl s'
  | @step x t z b w hmem _ ih =>
    obtain ⟨hright, hleft⟩ := ih hz
    -- an edge on the left, an edge on the right, or the one that leads across
    rcases (h.edge x b t).mp (Nfa.mem_transitions_iff.mp hmem) with
      he | ⟨s, t', he, rfl, rfl⟩ | ⟨rfl, hx, s, hs, rfl⟩
    · have hlt := hl.source_lt he
      refine ⟨fun s hs => absurd hs (by omega), fun _ => ?_⟩
      obtain ⟨t', ht', s, hs, u, v, hu, hv, rfl⟩ := hleft (hl.edge_lt _ _ _ he)
      exact ⟨t', ht', s, hs, b.reads ++ u, v, .cons he hu, hv, List.append_assoc ..⟩
    · refine ⟨fun s' hs => ?_, fun hx => absurd hx (by omega)⟩
      obtain rfl : s = s' := by omega
      exact .cons he (hright t' rfl)
    · have hlt := hl.finals_lt x hx
      refine ⟨fun s' hs => absurd hs (by omega), fun _ => ?_⟩
      exact ⟨x, hx, s, hs, [], w, .refl x, hright s rfl, rfl⟩

theorem IsConcat.path_of_left (h : IsConcat l r n) (hp : l.Path x w y) : n.Path x w y :=
  hp.mono fun s a t he => (h.edge s a t).mpr (.inl he)

theorem IsConcat.path_of_right (h : IsConcat l r n) (hp : r.Path x w y) :
    n.Path (x + l.stateCount) w (y + l.stateCount) :=
  hp.map (f := (· + l.stateCount)) fun s _ t he =>
    (h.edge _ _ _).mpr (.inr (.inl ⟨s, t, he, rfl, rfl⟩))

/-- A word of the left operand ends where the right one starts. -/
theorem IsConcat.path_across (h : IsConcat l r n) (hp : l.Path x w y) (hy : y ∈ l.finals)
    (hs : r.start = some s) : n.Path x w (s + l.stateCount) := by
  have hover : n.Path y [] (s + l.stateCount) :=
    .epsilon ((h.edge _ _ _).mpr (.inr (.inr ⟨rfl, hy, s, hs, rfl⟩)))
  rw [← List.append_nil w]
  exact (h.path_of_left hp).trans hover

/-- A concatenation accepts an accepted word of the left operand and then one of the
right. -/
theorem IsConcat.accepting_iff (hl : l.Valid) (h : IsConcat l r n) :
    n.Accepting w ↔ ∃ u v, l.Accepting u ∧ r.Accepting v ∧ u ++ v = w := by
  constructor
  · rintro ⟨x, hx, y, hy, hp⟩
    obtain ⟨t, ht, rfl⟩ := (h.mem_finals y).mp hy
    have hx' : l.start = some x := h.start.symm.trans hx
    obtain ⟨t', ht', s, hs, u, v, hu, hv, rfl⟩ := (h.rest hl hp).2 (hl.start_lt x hx')
    exact ⟨u, v, ⟨x, hx', t', ht', hu⟩, ⟨s, hs, t, ht, hv⟩, rfl⟩
  · rintro ⟨u, v, ⟨x, hx, t, ht, hu⟩, ⟨s, hs, y, hy, hv⟩, rfl⟩
    exact ⟨x, h.start.trans hx, y + l.stateCount, (h.mem_finals _).mpr ⟨y, hy, rfl⟩,
      (h.path_across hu ht hs).trans (h.path_of_right hv)⟩

-- ---------------------------------------------------------------------------
-- Alternatives
-- ---------------------------------------------------------------------------

/-- From an operand its rest is read; from the start state a word of either. Which operand
it is, is known by the number of the state. -/
theorem IsUnion.rest (hl : l.Valid) (hr : r.Valid) (h : IsUnion l r k n)
    (hp : n.Path x w (l.stateCount + r.stateCount + 1)) :
    (x = l.stateCount + r.stateCount + 1 → w = []) ∧
      (x = l.stateCount + r.stateCount → l.Accepting w ∨ r.Accepting w) ∧
      (x < l.stateCount → ∃ t ∈ l.finals, l.Path x w t) ∧
      (∀ s, s < r.stateCount → x = s + l.stateCount → ∃ t ∈ r.finals, r.Path s w t) := by
  generalize hy : l.stateCount + r.stateCount + 1 = y at hp
  induction hp with
  | refl s =>
    subst hy
    exact ⟨fun _ => rfl, fun hs => absurd hs (by omega), fun hs => absurd hs (by omega),
      fun s' hs' hs => absurd hs (by omega)⟩
  | @step x z y b w hmem _ ih =>
    obtain ⟨hfinal, -, hleft, hright⟩ := ih hy
    -- edges of either operand, those out of their final states, and those out of the
    -- start
    rcases (h.edge x b z).mp (Nfa.mem_transitions_iff.mp hmem) with
      he | ⟨s, t, he, rfl, rfl⟩ | ⟨rfl, ⟨hx | ⟨t, ht, rfl⟩, hz⟩ | ⟨hx, hz⟩⟩
    · have hlt := hl.source_lt he
      refine ⟨fun hx => absurd hx (by omega), fun hx => absurd hx (by omega), fun _ => ?_,
        fun s hs hx => absurd hx (by omega)⟩
      obtain ⟨t, ht, hp⟩ := hleft (hl.edge_lt _ _ _ he)
      exact ⟨t, ht, .cons he hp⟩
    · have hlt := hr.source_lt he
      refine ⟨fun hx => absurd hx (by omega), fun hx => absurd hx (by omega),
        fun hx => absurd hx (by omega), fun s' hs' hx => ?_⟩
      obtain rfl : s = s' := by omega
      obtain ⟨t', ht', hp⟩ := hright t (hr.edge_lt _ _ _ he) rfl
      exact ⟨t', ht', .cons he hp⟩
    · have hlt := hl.finals_lt x hx
      rw [hfinal (hz.trans hy)]
      exact ⟨fun _ => rfl, fun hx => absurd hx (by omega), fun _ => ⟨x, hx, .refl x⟩,
        fun s hs hx => absurd hx (by omega)⟩
    · have hlt := hr.finals_lt t ht
      rw [hfinal (hz.trans hy)]
      refine ⟨fun _ => rfl, fun hx => absurd hx (by omega), fun hx => absurd hx (by omega),
        fun s hs hx => ?_⟩
      obtain rfl : t = s := by omega
      exact ⟨t, ht, .refl t⟩
    · refine ⟨fun hx => absurd hx (by omega), fun _ => ?_, fun hx => absurd hx (by omega),
        fun s hs hx => absurd hx (by omega)⟩
      rcases hz with hz | ⟨s, hs, rfl⟩
      · obtain ⟨t, ht, hp⟩ := hleft (hl.start_lt z hz)
        exact .inl ⟨z, hz, t, ht, hp⟩
      · obtain ⟨t, ht, hp⟩ := hright s (hr.start_lt s hs) rfl
        exact .inr ⟨s, hs, t, ht, hp⟩

/-- The left operand is entered from the start … -/
theorem IsUnion.path_into_left (h : IsUnion l r k n) (hs : l.start = some s)
    (hp : l.Path s w y) : n.Path (l.stateCount + r.stateCount) w y := by
  have hin : n.Path (l.stateCount + r.stateCount) [] s :=
    .epsilon ((h.edge _ _ _).mpr (.inr (.inr ⟨rfl, .inr ⟨rfl, .inl hs⟩⟩)))
  exact hin.after_nil (hp.mono fun s a t he => (h.edge s a t).mpr (.inl he))

/-- … and so is the right one. -/
theorem IsUnion.path_into_right (h : IsUnion l r k n) (hs : r.start = some s)
    (hp : r.Path s w y) : n.Path (l.stateCount + r.stateCount) w (y + l.stateCount) := by
  have hin : n.Path (l.stateCount + r.stateCount) [] (s + l.stateCount) :=
    .epsilon ((h.edge _ _ _).mpr (.inr (.inr ⟨rfl, .inr ⟨rfl, .inr ⟨s, hs, rfl⟩⟩⟩)))
  exact hin.after_nil (hp.map (f := (· + l.stateCount)) fun s a t he =>
    (h.edge _ _ _).mpr (.inr (.inl ⟨s, t, he, rfl, rfl⟩)))

/-- Where a word of the left operand ends, the final state is reached … -/
theorem IsUnion.path_out_of_left (h : IsUnion l r k n) (hp : l.Path x w y) (hy : y ∈ l.finals) :
    n.Path x w (l.stateCount + r.stateCount + 1) := by
  have hout : n.Path y [] (l.stateCount + r.stateCount + 1) :=
    .epsilon ((h.edge _ _ _).mpr (.inr (.inr ⟨rfl, .inl ⟨.inl hy, rfl⟩⟩)))
  rw [← List.append_nil w]
  exact (hp.mono fun s a t he => (h.edge s a t).mpr (.inl he)).trans hout

/-- … and so it is for the right one. -/
theorem IsUnion.path_out_of_right (h : IsUnion l r k n) (hp : r.Path x w y) (hy : y ∈ r.finals) :
    n.Path (x + l.stateCount) w (l.stateCount + r.stateCount + 1) := by
  have hout : n.Path (y + l.stateCount) [] (l.stateCount + r.stateCount + 1) :=
    .epsilon ((h.edge _ _ _).mpr (.inr (.inr ⟨rfl, .inl ⟨.inr ⟨y, hy, rfl⟩, rfl⟩⟩)))
  rw [← List.append_nil w]
  exact (hp.map (f := (· + l.stateCount)) fun s a t he =>
    (h.edge _ _ _).mpr (.inr (.inl ⟨s, t, he, rfl, rfl⟩))).trans hout

/-- A union accepts what either operand accepts. A path from the new start goes into one
of the operands, and cannot leave it but to the new final state. -/
theorem IsUnion.accepting_iff (hl : l.Valid) (hr : r.Valid) (h : IsUnion l r k n) :
    n.Accepting w ↔ l.Accepting w ∨ r.Accepting w := by
  have haccepts : n.Path (l.stateCount + r.stateCount) w (l.stateCount + r.stateCount + 1) →
      n.Accepting w := fun hp => ⟨_, h.start, _, (h.mem_finals _).mpr rfl, hp⟩
  constructor
  · rintro ⟨x, hx, y, hy, hp⟩
    rw [(h.mem_finals y).mp hy] at hp
    exact (h.rest hl hr hp).2.1 (Option.some.inj (hx.symm.trans h.start))
  · rintro (⟨x, hx, t, ht, hp⟩ | ⟨x, hx, t, ht, hp⟩)
    · exact haccepts ((h.path_into_left hx (.refl x)).after_nil (h.path_out_of_left hp ht))
    · exact haccepts ((h.path_into_right hx (.refl x)).after_nil (h.path_out_of_right hp ht))

end Workshop

end PatternAutomata
