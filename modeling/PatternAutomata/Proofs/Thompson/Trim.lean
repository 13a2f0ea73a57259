import PatternAutomata.Proofs.Automaton.Trim
import PatternAutomata.Proofs.Positions.Sequences
import PatternAutomata.Proofs.Thompson.Fragments
import PatternAutomata.Proofs.Thompson.Reached

/-!
# Pattern automata — Thompson's construction makes no useless states

Each combinator keeps the states of its operands useful and makes useful states of
its own. A state of an operand is reached as in the operand, after whatever comes
before it, and goes on as in the operand and out of it; since every operand accepts
some word, there always is something to come before and after. In a product the two
operands walk to a pair one after the other, and away from it likewise.

## Results

* `IsAtom.useful`, `IsStar.useful`, `IsConcat.useful`, `IsUnion.useful`,
  `Nfa.IsProduct.useful` — every combinator keeps all states useful.
* `Made.mem_alphabet_iff` — the alphabet is what the leaves read.
* `Made.trim`             — a fragment has useful states and symbols only.
-/

namespace PatternAutomata

-- ---------------------------------------------------------------------------
-- Products
-- ---------------------------------------------------------------------------

namespace Nfa

variable {l r n : Nfa} {s t : Nat}

/-- Every pair of useful states is reached, by one operand's path and then the other's.
While the one moves the other stands still, so any two paths can be put together. -/
theorem IsProduct.exists_path_to (hl : l.Valid) (hr : r.Valid) (hul : l.Useful) (hur : r.Useful)
    (hs : l.start = some s) (ht : r.start = some t) (h : IsProduct l r (s, t) n) {p : Nat × Nat}
    (hp : HasPair l r p) : ∃ x w, (reachedPairs l r (s, t))[x]? = some p ∧ n.Path 0 w x := by
  have horigin : HasPair l r (s, t) := ⟨hl.start_lt s hs, hr.start_lt t ht⟩
  obtain ⟨u, s', hs', hu⟩ := hul.reachable p.1 hp.1
  obtain ⟨v, t', ht', hv⟩ := hur.reachable p.2 hp.2
  obtain rfl := Option.some.inj (hs.symm.trans hs')
  obtain rfl := Option.some.inj (ht.symm.trans ht')
  obtain ⟨x, hx, hpath⟩ :=
    (h.follows hl hr horigin).exists_path (.append u v) hu hv getElem?_zero_reachedPairs
  exact ⟨x, u ++ v, hx, hpath⟩

/-- A pair is reached by one operand's path and then the other's, and left in the same
way. So all that is needed is that both members are useful in their operands. -/
theorem IsProduct.useful (hl : l.Valid) (hr : r.Valid) (hul : l.Useful) (hur : r.Useful)
    (hs : l.start = some s) (ht : r.start = some t) (h : IsProduct l r (s, t) n) : n.Useful := by
  have horigin : HasPair l r (s, t) := ⟨hl.start_lt s hs, hr.start_lt t ht⟩
  have hpair : ∀ x < n.stateCount, ∃ p, (reachedPairs l r (s, t))[x]? = some p ∧
      HasPair l r p := by
    intro x hx
    rw [h.stateCount] at hx
    exact ⟨_, List.getElem?_eq_getElem hx,
      hasPair_of_mem_reachedPairs hl hr horigin (List.getElem_mem hx)⟩
  constructor
  · intro x hx
    obtain ⟨p, hp, hpair⟩ := hpair x hx
    obtain ⟨z, w, hz, hpath⟩ := h.exists_path_to hl hr hul hur hs ht hpair
    obtain ⟨hlt, -⟩ := List.getElem?_eq_some_iff.mp hz
    -- the path ends at a state of this pair, and there is one such state
    obtain rfl : z = x := (List.getElem?_inj hlt nodup_explore).mp (hz.trans hp.symm)
    exact ⟨w, 0, h.start, hpath⟩
  · intro x hx
    obtain ⟨p, hp, hleft, hright⟩ := hpair x hx
    obtain ⟨i, hi, u, hu⟩ := hul.productive p.1 hleft
    obtain ⟨j, hj, v, hv⟩ := hur.productive p.2 hright
    obtain ⟨z, hz, hpath⟩ :=
      (h.follows hl hr horigin).exists_path (q := (i, j)) (.append u v) hu hv hp
    exact ⟨z, (h.mem_finals z).mpr ⟨_, hz, hi, hj⟩, u ++ v, hpath⟩

end Nfa

namespace Workshop

variable {l r m n : Nfa} {a : Symbol} {k : Nat}

-- ---------------------------------------------------------------------------
-- Single transitions
-- ---------------------------------------------------------------------------

/-- From the start to the final state there is a transition, and no other states are
there. -/
theorem IsAtom.useful (h : IsAtom a k n) : n.Useful := by
  have hedge : n.Path 0 a.reads 1 := .edge ((h.edge 0 a 1).mpr ⟨rfl, rfl, rfl⟩)
  have hcases : ∀ x < n.stateCount, x = 0 ∨ x = 1 := by
    rw [h.stateCount]
    omega
  have hfinal := (h.mem_finals 1).mpr rfl
  constructor
  · intro x hx
    rcases hcases x hx with rfl | rfl
    · exact ⟨[], 0, h.start, .refl 0⟩
    · exact ⟨a.reads, 0, h.start, hedge⟩
  · intro x hx
    rcases hcases x hx with rfl | rfl
    · exact ⟨1, hfinal, a.reads, hedge⟩
    · exact ⟨1, hfinal, [], .refl 1⟩

-- ---------------------------------------------------------------------------
-- Repetition
-- ---------------------------------------------------------------------------

/-- A state of the body is reached in the first round and left to the final state. The two
new states are joined by an edge. -/
theorem IsStar.useful (hm : m.Valid) (hu : m.Useful) (h : IsStar m k n) : n.Useful := by
  have hfinal := (h.mem_finals (m.stateCount + 1)).mpr rfl
  have hskip : n.Path m.stateCount [] (m.stateCount + 1) := h.path_between (.inr rfl) (.inr rfl)
  -- a state of the body, the new start, or the new final state
  have hcases : ∀ x < n.stateCount, x < m.stateCount ∨ x = m.stateCount ∨
      x = m.stateCount + 1 := by
    rw [h.stateCount]
    omega
  constructor
  · intro x hx
    rcases hcases x hx with hx | rfl | rfl
    · obtain ⟨v, hv⟩ := hu.reachable x hx
      exact ⟨v, (h.leadsTo_iff hm hx).mpr ⟨[], v, repeated_nil, hv, rfl⟩⟩
    · exact ⟨[], _, h.start, .refl _⟩
    · exact ⟨[], _, h.start, hskip⟩
  · intro x hx
    rcases hcases x hx with hx | rfl | rfl
    · obtain ⟨y, hy, v, hv⟩ := hu.productive x hx
      exact ⟨_, hfinal, _, (h.path_of_operand hv).trans (h.path_between (.inl hy) (.inr rfl))⟩
    · exact ⟨_, hfinal, [], hskip⟩
    · exact ⟨_, hfinal, [], .refl _⟩

-- ---------------------------------------------------------------------------
-- Two operands
-- ---------------------------------------------------------------------------

/-- A state on the left is reached as there and left through the right operand; one on the
right is reached after a word of the left operand. Both operands accept some word. -/
theorem IsConcat.useful (hl : l.Valid) (hul : l.Useful) (hur : r.Useful) {s t : Nat}
    (hs : l.start = some s) (hr : r.Valid) (ht : r.start = some t) (h : IsConcat l r n) :
    n.Useful := by
  have hcases : ∀ x < n.stateCount, x < l.stateCount ∨
      ∃ i < r.stateCount, x = i + l.stateCount := by
    intro x hx
    rw [h.stateCount] at hx
    rcases Nat.lt_or_ge x l.stateCount with hlt | hge
    · exact .inl hlt
    · simp only [List.length_nil] at hx
      exact .inr ⟨x - l.stateCount, by omega, by omega⟩
  -- a state of the right operand is left as there
  have hright : ∀ i < r.stateCount, ∃ y ∈ n.finals, ∃ v, n.Path (i + l.stateCount) v y := by
    intro i hi
    obtain ⟨y, hy, v, hv⟩ := hur.productive i hi
    exact ⟨y + l.stateCount, (h.mem_finals _).mpr ⟨y, hy, rfl⟩, v, h.path_of_right hv⟩
  constructor
  · intro x hx
    rcases hcases x hx with hx | ⟨i, hi, rfl⟩
    · obtain ⟨u, hu⟩ := hul.reachable x hx
      exact ⟨u, (h.leadsTo_left_iff hl hx).mpr hu⟩
    · obtain ⟨u, hu⟩ := hul.exists_accepting hl hs
      obtain ⟨v, hv⟩ := hur.reachable i hi
      exact ⟨u ++ v, (h.leadsTo_right_iff hl).mpr ⟨u, v, hu, hv, rfl⟩⟩
  · intro x hx
    rcases hcases x hx with hx | ⟨i, hi, rfl⟩
    · obtain ⟨y, hy, u, hu⟩ := hul.productive x hx
      obtain ⟨z, hz, v, hv⟩ := hright t (hr.start_lt t ht)
      exact ⟨z, hz, u ++ v, (h.path_across hu hy ht).trans hv⟩
    · exact hright i hi

/-- A state of an operand is reached as there, and left to the final state. Some word of
the left operand leads from the new start to the new final state. -/
theorem IsUnion.useful (hl : l.Valid) (hr : r.Valid) (hul : l.Useful) (hur : r.Useful) {s : Nat}
    (hs : l.start = some s) (h : IsUnion l r k n) : n.Useful := by
  have hcases : ∀ x < n.stateCount, x < l.stateCount ∨
      (∃ i < r.stateCount, x = i + l.stateCount) ∨
      x = l.stateCount + r.stateCount ∨ x = l.stateCount + r.stateCount + 1 := by
    intro x hx
    rw [h.stateCount] at hx
    simp only [List.length_cons, List.length_nil] at hx
    rcases Nat.lt_or_ge x l.stateCount with hlt | hge
    · exact .inl hlt
    · rcases Nat.lt_or_ge x (l.stateCount + r.stateCount) with hlt | hge'
      · exact .inr (.inl ⟨x - l.stateCount, by omega, by omega⟩)
      · exact .inr (.inr (by omega))
  have hfinal := (h.mem_finals _).mpr rfl
  -- some word goes all the way from the start to the final state
  obtain ⟨u, hu⟩ := hul.exists_accepting hl hs
  obtain ⟨i, hi, j, hj, hthrough⟩ := (h.accepting_iff hl hr).mpr (.inl hu)
  obtain rfl := Option.some.inj (hi.symm.trans h.start)
  obtain rfl := (h.mem_finals j).mp hj
  constructor
  · intro x hx
    rcases hcases x hx with hx | ⟨i, hi, rfl⟩ | rfl | rfl
    · obtain ⟨u, hu⟩ := hul.reachable x hx
      exact ⟨u, (h.leadsTo_left_iff hl hr hx).mpr hu⟩
    · obtain ⟨u, hu⟩ := hur.reachable i hi
      exact ⟨u, (h.leadsTo_right_iff hl hr hi).mpr hu⟩
    · exact ⟨[], _, h.start, .refl _⟩
    · exact ⟨u, _, h.start, hthrough⟩
  · intro x hx
    rcases hcases x hx with hx | ⟨i, hi, rfl⟩ | rfl | rfl
    · obtain ⟨y, hy, v, hv⟩ := hul.productive x hx
      exact ⟨_, hfinal, v, h.path_out_of_left hv hy⟩
    · obtain ⟨y, hy, v, hv⟩ := hur.productive i hi
      exact ⟨_, hfinal, v, h.path_out_of_right hv hy⟩
    · exact ⟨_, hfinal, u, hthrough⟩
    · exact ⟨_, hfinal, [], .refl _⟩

-- ---------------------------------------------------------------------------
-- Fragments
-- ---------------------------------------------------------------------------

variable {e : Expr (Letter × Nat)} {lo hi : Nat}

/-- Every state of a fragment is useful, by induction on how it was made. No combinator
leaves a state behind that nothing leads to. -/
theorem Made.useful (h : Made e lo n hi) : n.Useful := by
  induction h with
  | epsilon h | char h | endMarker h => exact h.useful
  | concat hl hr h ihl ihr =>
    obtain ⟨s, hs⟩ := hl.fragment.start
    obtain ⟨t, ht⟩ := hr.fragment.start
    exact h.useful hl.fragment.valid ihl ihr hs hr.fragment.valid ht
  | union hl hr h ihl ihr =>
    obtain ⟨s, hs⟩ := hl.fragment.start
    exact h.useful hl.fragment.valid hr.fragment.valid ihl ihr hs
  | shuffle hl hr hs ht h ihl ihr =>
    exact h.useful hl.fragment.valid hr.fragment.valid ihl ihr hs ht
  | star hm h ih => exact h.useful hm.fragment.valid ih

/-- The alphabet is what the leaves read. No combinator adds a letter or takes one away. -/
theorem Made.mem_alphabet_iff (h : Made e lo n hi) {c : Char} :
    c ∈ n.alphabet ↔ Letter.char c ∈ e.leaves.map (·.1) := by
  induction h with
  | epsilon h | endMarker h =>
    rw [h.mem_alphabet]
    simp [Expr.leaves]
  | char h =>
    rw [h.mem_alphabet]
    simp [Expr.leaves, eq_comm]
  | concat _ _ h ihl ihr | union _ _ h ihl ihr | shuffle _ _ _ _ h ihl ihr =>
    rw [h.mem_alphabet, ihl, ihr, ← List.mem_append, ← List.map_append]
    rfl
  | star _ h ih => rw [h.mem_alphabet, ih, Expr.leaves]

/-- A fragment has useful states and symbols only. Each letter is in a leaf, some word of
the expression passes through that leaf, and so a transition reads it. -/
theorem Made.trim (h : Made e lo n hi) : n.Trim where
  toUseful := h.useful
  symbol_used c hc := by
    obtain ⟨⟨a, p⟩, hmem, rfl⟩ := List.mem_map.mp (h.mem_alphabet_iff.mp hc)
    obtain ⟨u, v, hmatches⟩ := Expr.exists_matches_of_mem_leaves hmem
    have hword := (h.fragment.accepting _).mpr (hmatches.flatMap (·.1.reads))
    rw [List.flatMap_append, List.flatMap_cons] at hword
    exact Nfa.exists_transition_of_accepting hword

end Workshop

end PatternAutomata
