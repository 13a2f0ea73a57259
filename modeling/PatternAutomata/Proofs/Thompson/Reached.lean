import PatternAutomata.Proofs.Thompson.Language

/-!
# Pattern automata — what is read on the way into an operand

An operand keeps its states in the fragment that a combinator makes of it. Which
words lead to one of them follows from the words that lead there in the operand
alone: in the right operand of a concatenation a word of the left one comes
first, in a repetition some rounds do, and otherwise nothing changes.

Such a path is taken apart where it enters the operand for the last time.

## Results

* `IsAtom.leadsTo_zero_iff` — only the empty word leads to the state in front of a transition.
* `IsStar.leadsTo_iff`, `IsConcat.leadsTo_left_iff`, `IsConcat.leadsTo_right_iff`,
  `IsUnion.leadsTo_left_iff`, `IsUnion.leadsTo_right_iff` — the words that lead into operands.
-/

namespace PatternAutomata

namespace Workshop

variable {l r m n : Nfa} {a : Symbol} {k x y : Nat} {w : List Char}

-- ---------------------------------------------------------------------------
-- Single transitions
-- ---------------------------------------------------------------------------

/-- Only the empty word leads to the state in front of a transition. A path with an edge
ends behind it. -/
theorem IsAtom.leadsTo_zero_iff (h : IsAtom a k n) : n.LeadsTo w 0 ↔ w = [] := by
  constructor
  · rintro ⟨s, -, hp⟩
    generalize hx : 0 = x at hp
    induction hp with
    | refl s => rfl
    | @step s z x b w hmem hp ih =>
      -- no transition leads back to the state in front
      obtain ⟨-, -, rfl⟩ := (h.edge s b z).mp (Nfa.mem_transitions_iff.mp hmem)
      subst hx
      cases hp with
      | step hmem' _ =>
        obtain ⟨hone, -, -⟩ := (h.edge _ _ _).mp (Nfa.mem_transitions_iff.mp hmem')
        exact absurd hone (by omega)
  · rintro rfl
    exact ⟨0, h.start, .refl 0⟩

-- ---------------------------------------------------------------------------
-- Repetition
-- ---------------------------------------------------------------------------

/-- Between rounds a path is at a final state of `m`, or still at the start. In both cases
the next round begins with an `ε`-edge. -/
theorem IsStar.path_rounds (h : IsStar m k n) (hw : Repeated m.Accepting w) :
    ∃ z, (z ∈ m.finals ∨ z = m.stateCount) ∧ n.LeadsTo w z := by
  obtain ⟨ws, hws, rfl⟩ := hw
  -- round by round, from either kind of state
  have hrounds : ∀ x, x ∈ m.finals ∨ x = m.stateCount →
      ∃ z, (z ∈ m.finals ∨ z = m.stateCount) ∧ n.Path x ws.flatten z := by
    induction ws with
    | nil => exact fun x hx => ⟨x, hx, .refl x⟩
    | cons u ws ih =>
      intro x hx
      obtain ⟨s, hs, t, ht, hp⟩ := hws u List.mem_cons_self
      have hround : n.Path x u t :=
        (h.path_between hx (.inl hs)).after_nil (h.path_of_operand hp)
      obtain ⟨z, hz, hrest⟩ := ih (fun v hv => hws v (List.mem_cons_of_mem _ hv)) t (.inl ht)
      exact ⟨z, hz, hround.trans hrest⟩
  obtain ⟨z, hz, hp⟩ := hrounds m.stateCount (.inr rfl)
  exact ⟨z, hz, m.stateCount, h.start, hp⟩

/-- From inside, the path stays in its round, or ends the round and goes through some
more. What is said of the new start is what the statement is for; the other half is there
for the induction. -/
theorem IsStar.path_inside (hm : m.Valid) (h : IsStar m k n) (hy : y < m.stateCount)
    (hp : n.Path x w y) :
    (x = m.stateCount → ∃ u v, Repeated m.Accepting u ∧ m.LeadsTo v y ∧ u ++ v = w) ∧
      (x < m.stateCount → m.Path x w y ∨ ∃ t ∈ m.finals, ∃ u₁ u₂ v,
        m.Path x u₁ t ∧ Repeated m.Accepting u₂ ∧ m.LeadsTo v y ∧ u₁ ++ (u₂ ++ v) = w) := by
  induction hp with
  | refl s => exact ⟨fun hs => absurd hs (by omega), fun _ => .inl (.refl s)⟩
  | @step x z y b w hmem hrest ih =>
    obtain ⟨-, hinside⟩ := ih hy
    -- rounds that begin at `z`, the last of which gets to `y`
    have hround : b = .epsilon → m.start = some z ∨ z = m.stateCount + 1 →
        ∃ u v, Repeated m.Accepting u ∧ m.LeadsTo v y ∧ u ++ v = b.reads ++ w := by
      rintro rfl (hz | rfl)
      · rcases hinside (hm.start_lt z hz) with hlast | ⟨t, ht, u₁, u₂, v, hu₁, hu₂, hv, rfl⟩
        · exact ⟨[], w, repeated_nil, ⟨z, hz, hlast⟩, rfl⟩
        · exact ⟨u₁ ++ u₂, v, hu₂.cons ⟨z, hz, t, ht, hu₁⟩, hv, List.append_assoc ..⟩
      · -- nothing leads out of the final state
        cases hrest with
        | refl => omega
        | step hmem' _ =>
          rcases (h.edge _ _ _).mp (Nfa.mem_transitions_iff.mp hmem') with he | ⟨-, hx, -⟩
          · have hlt := hm.source_lt he
            omega
          · rcases hx with hx | hx
            · have hlt := hm.finals_lt _ hx
              omega
            · omega
    -- either the round goes on, or it ends at `x` and others follow
    rcases (h.edge x b z).mp (Nfa.mem_transitions_iff.mp hmem) with he | ⟨hb, hx, hz⟩
    · have hlt := hm.source_lt he
      refine ⟨fun hx => absurd hx (by omega), fun _ => ?_⟩
      rcases hinside (hm.edge_lt _ _ _ he) with hlast | ⟨t, ht, u₁, u₂, v, hu₁, hu₂, hv, rfl⟩
      · exact .inl (.cons he hlast)
      · exact .inr ⟨t, ht, b.reads ++ u₁, u₂, v, .cons he hu₁, hu₂, hv, List.append_assoc ..⟩
    · refine ⟨fun _ => hround hb hz, fun hlt => ?_⟩
      obtain ⟨u, v, hu, hv, hw⟩ := hround hb hz
      refine .inr ⟨x, hx.resolve_right (by omega), [], u, v, .refl x, hu, hv, hw⟩

/-- Into a repetition, some rounds come first: a word that leads to a state of the body is
a number of whole words of the body, and then a word that leads there within it. -/
theorem IsStar.leadsTo_iff (hm : m.Valid) (h : IsStar m k n) (hx : x < m.stateCount) :
    n.LeadsTo w x ↔ ∃ u v, Repeated m.Accepting u ∧ m.LeadsTo v x ∧ u ++ v = w := by
  constructor
  · rintro ⟨s, hs, hp⟩
    exact (h.path_inside hm hx hp).1 (Option.some.inj (hs.symm.trans h.start))
  · rintro ⟨u, v, hu, ⟨s, hs, hv⟩, rfl⟩
    obtain ⟨z, hz, hrounds⟩ := h.path_rounds hu
    exact hrounds.append ((h.path_between hz (.inl hs)).after_nil (h.path_of_operand hv))

-- ---------------------------------------------------------------------------
-- Concatenation
-- ---------------------------------------------------------------------------

/-- Nothing leads back into the left operand, so a path that ends there has been there all
the time. -/
theorem IsConcat.path_left (hl : l.Valid) (h : IsConcat l r n) (hy : y < l.stateCount)
    (hp : n.Path x w y) : l.Path x w y := by
  induction hp with
  | refl s => exact .refl s
  | @step x z y b w hmem _ ih =>
    have hpath := ih hy
    have hz := hl.path_source_lt hpath hy
    rcases (h.edge x b z).mp (Nfa.mem_transitions_iff.mp hmem) with
      he | ⟨s, t, -, -, rfl⟩ | ⟨-, -, s, -, rfl⟩
    · exact .cons he hpath
    · omega
    · omega

/-- Into the left operand, what leads there alone. -/
theorem IsConcat.leadsTo_left_iff (hl : l.Valid) (h : IsConcat l r n) (hx : x < l.stateCount) :
    n.LeadsTo w x ↔ l.LeadsTo w x := by
  constructor
  · rintro ⟨s, hs, hp⟩
    exact ⟨s, h.start.symm.trans hs, h.path_left hl hx hp⟩
  · rintro ⟨s, hs, hp⟩
    exact ⟨s, h.start.trans hs, h.path_of_left hp⟩

/-- Into the right operand, a word of the left one comes first. Then the path goes on from
the start of the right operand. -/
theorem IsConcat.leadsTo_right_iff (hl : l.Valid) (h : IsConcat l r n) :
    n.LeadsTo w (x + l.stateCount) ↔ ∃ u v, l.Accepting u ∧ r.LeadsTo v x ∧ u ++ v = w := by
  constructor
  · rintro ⟨s, hs, hp⟩
    have hs' : l.start = some s := h.start.symm.trans hs
    obtain ⟨t, ht, s', hs'', u, v, hu, hv, rfl⟩ := (h.rest hl hp).2 (hl.start_lt s hs')
    exact ⟨u, v, ⟨s, hs', t, ht, hu⟩, ⟨s', hs'', hv⟩, rfl⟩
  · rintro ⟨u, v, ⟨s, hs, t, ht, hu⟩, ⟨s', hs', hv⟩, rfl⟩
    exact ⟨s, h.start.trans hs, (h.path_across hu ht hs').trans (h.path_of_right hv)⟩

-- ---------------------------------------------------------------------------
-- Alternatives
-- ---------------------------------------------------------------------------

/-- The left operand is entered from the start only. The path ends there, so it never was
in the right operand or at the final state, as nothing leads back from these. -/
theorem IsUnion.path_left (hl : l.Valid) (hr : r.Valid) (h : IsUnion l r k n)
    (hy : y < l.stateCount) (hp : n.Path x w y) :
    (x = l.stateCount + r.stateCount → l.LeadsTo w y) ∧
      (x ≠ l.stateCount + r.stateCount → l.Path x w y) := by
  induction hp with
  | refl s => exact ⟨fun hs => absurd hs (by omega), fun _ => .refl s⟩
  | @step x z y b w hmem _ ih =>
    obtain ⟨-, hinside⟩ := ih hy
    have hz : z ≠ l.stateCount + r.stateCount → z < l.stateCount := fun hne =>
      hl.path_source_lt (hinside hne) hy
    -- only the first of these edges and the last can be on such a path
    rcases (h.edge x b z).mp (Nfa.mem_transitions_iff.mp hmem) with
      he | ⟨s, t, he, -, rfl⟩ | ⟨rfl, ⟨-, rfl⟩ | ⟨rfl, hstart⟩⟩
    · have hlt := hl.edge_lt _ _ _ he
      have hlt' := hl.source_lt he
      exact ⟨fun hx => absurd hx (by omega), fun _ => .cons he (hinside (by omega))⟩
    · have hlt := hr.edge_lt _ _ _ he
      have hlt' := hz (by omega)
      omega
    · have hlt := hz (by omega)
      omega
    · refine ⟨fun _ => ?_, fun hx => absurd rfl hx⟩
      rcases hstart with hs | ⟨s, hs, rfl⟩
      · have hlt := hl.start_lt z hs
        exact ⟨z, hs, hinside (by omega)⟩
      · have hlt := hr.start_lt s hs
        have hlt' := hz (by omega)
        omega

/-- The right operand is come to in the same way, with its states raised. A path that ends
in it has been there all the time, but for the first edge if it begins at the start. -/
theorem IsUnion.path_right (hl : l.Valid) (hr : r.Valid) (h : IsUnion l r k n)
    (hy : y < r.stateCount) (hp : n.Path x w (y + l.stateCount)) :
    (x = l.stateCount + r.stateCount → r.LeadsTo w y) ∧
      (x ≠ l.stateCount + r.stateCount → ∃ s, x = s + l.stateCount ∧ r.Path s w y) := by
  generalize hz : y + l.stateCount = z at hp
  induction hp with
  | refl s =>
    subst hz
    exact ⟨fun hs => absurd hs (by omega), fun _ => ⟨y, rfl, .refl y⟩⟩
  | @step x t z b w hmem _ ih =>
    obtain ⟨-, hinside⟩ := ih hz
    have ht : t ≠ l.stateCount + r.stateCount → l.stateCount ≤ t ∧
        t < l.stateCount + r.stateCount := by
      intro hne
      obtain ⟨s, rfl, hp⟩ := hinside hne
      have hlt := hr.path_source_lt hp hy
      omega
    -- only the second of these edges and the last can be on such a path
    rcases (h.edge x b t).mp (Nfa.mem_transitions_iff.mp hmem) with
      he | ⟨s, u, he, rfl, rfl⟩ | ⟨rfl, ⟨-, rfl⟩ | ⟨rfl, hstart⟩⟩
    · have hlt := hl.edge_lt _ _ _ he
      have hle := ht (by omega)
      omega
    · have hlt := hr.edge_lt _ _ _ he
      have hlt' := hr.source_lt he
      refine ⟨fun hx => absurd hx (by omega), fun _ => ⟨s, rfl, ?_⟩⟩
      obtain ⟨u', hu, hp⟩ := hinside (by omega)
      obtain rfl : u = u' := by omega
      exact .cons he hp
    · have hlt := ht (by omega)
      omega
    · refine ⟨fun _ => ?_, fun hx => absurd rfl hx⟩
      rcases hstart with hs | ⟨s, hs, rfl⟩
      · have hlt := hl.start_lt t hs
        have hle := ht (by omega)
        omega
      · have hlt := hr.start_lt s hs
        obtain ⟨s', hs', hp⟩ := hinside (by omega)
        obtain rfl : s = s' := by omega
        exact ⟨s, hs, hp⟩

/-- Into the left operand of a union, what leads there alone. -/
theorem IsUnion.leadsTo_left_iff (hl : l.Valid) (hr : r.Valid) (h : IsUnion l r k n)
    (hx : x < l.stateCount) : n.LeadsTo w x ↔ l.LeadsTo w x := by
  constructor
  · rintro ⟨s, hs, hp⟩
    exact (h.path_left hl hr hx hp).1 (Option.some.inj (hs.symm.trans h.start))
  · rintro ⟨s, hs, hp⟩
    exact ⟨_, h.start, h.path_into_left hs hp⟩

/-- And so it is for the right one. -/
theorem IsUnion.leadsTo_right_iff (hl : l.Valid) (hr : r.Valid) (h : IsUnion l r k n)
    (hx : x < r.stateCount) : n.LeadsTo w (x + l.stateCount) ↔ r.LeadsTo w x := by
  constructor
  · rintro ⟨s, hs, hp⟩
    exact (h.path_right hl hr hx hp).1 (Option.some.inj (hs.symm.trans h.start))
  · rintro ⟨s, hs, hp⟩
    exact ⟨_, h.start, h.path_into_right hs hp⟩

end Workshop

end PatternAutomata
