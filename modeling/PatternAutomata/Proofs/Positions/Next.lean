import PatternAutomata.Proofs.Positions.Sequences

/-!
# Pattern automata — leaves that can be read next

After some letters were read, a leaf can be next if some word of leaves goes on
with it. For every operator this comes down to its operands: in a concatenation
the left operand is read through before a leaf of the right one is next, and in a
repetition some rounds are.

Words of letters are taken apart as words of leaves. That every word of letters
comes from one of leaves holds only where nothing is interleaved: an
interleaving of letters need not keep what one leaf reads together.

## Results

* `Sequential.exists_leaves`  — words of letters come from words of leaves.
* `comesNext_concat_iff`, `comesNext_union_iff`, `comesNext_star_iff` — the leaves that can be
  next in an operator.
-/

namespace PatternAutomata

namespace Expr

/-- Every word of a reading comes from a word of leaves, by induction on the derivation.
With an interleaving it need not: two leaves could be read at once. -/
theorem Sequential.exists_leaves {α β : Type} {e : Expr α} {f : α → List β} {w : List β}
    (hseq : e.Sequential) (h : e.Matches f w) :
    ∃ as, e.Matches (fun a => [a]) as ∧ as.flatMap f = w := by
  induction h with
  | epsilon => exact ⟨[], .epsilon, rfl⟩
  | leaf a => exact ⟨[a], .leaf a, List.flatMap_singleton ..⟩
  | concat _ _ ihu ihv =>
    obtain ⟨as, has, rfl⟩ := ihu hseq.1
    obtain ⟨bs, hbs, rfl⟩ := ihv hseq.2
    exact ⟨as ++ bs, .concat has hbs, List.flatMap_append⟩
  | unionLeft _ ih => exact (ih hseq.1).imp fun as has => ⟨.unionLeft has.1, has.2⟩
  | unionRight _ ih => exact (ih hseq.2).imp fun as has => ⟨.unionRight has.1, has.2⟩
  -- the case that is excluded
  | shuffle => exact absurd hseq id
  | starNil => exact ⟨[], .starNil, rfl⟩
  | starMore _ _ ihu ihv =>
    obtain ⟨as, has, rfl⟩ := ihu hseq
    obtain ⟨bs, hbs, rfl⟩ := ihv hseq
    exact ⟨as ++ bs, .starMore has hbs, List.flatMap_append⟩

/-- After `w` was read, the leaf with number `p` can be read next. -/
def ComesNext (e : Expr (Letter × Nat)) (w : List Char) (p : Nat) : Prop :=
  ∃ before a after, e.Matches (fun a => [a]) (before ++ a :: after) ∧ a.2 = p ∧
    before.flatMap (·.1.reads) = w

variable {e l r : Expr (Letter × Nat)} {w : List Char} {p : Nat}

theorem ComesNext.mem_numbers (h : e.ComesNext w p) : p ∈ e.numbers := by
  obtain ⟨before, a, after, h, rfl, -⟩ := h
  exact List.mem_map_of_mem (h.mem_leaves a (by simp))

/-- A leaf can be next as long as nothing was read. -/
theorem comesNext_leaf_iff {a : Letter × Nat} : (leaf a).ComesNext w p ↔ w = [] ∧ a.2 = p := by
  constructor
  · rintro ⟨before, b, after, h, rfl, rfl⟩
    obtain ⟨rfl, rfl⟩ := eq_nil_of_singleton_eq_append_cons (matches_leaf_iff.mp h).symm
    exact ⟨rfl, rfl⟩
  · rintro ⟨rfl, rfl⟩
    exact ⟨[], a, [], .leaf a, rfl, rfl⟩

theorem comesNext_union_iff : (union l r).ComesNext w p ↔ l.ComesNext w p ∨ r.ComesNext w p := by
  simp only [ComesNext, matches_union_iff, or_and_right, exists_or]

/-- Before a leaf of the right operand, the left one is read through. The left operand
must have no interleavings, so that what it reads is read along one of its sequences of
leaves. -/
theorem comesNext_concat_iff (hl : l.Sequential) : (concat l r).ComesNext w p ↔
    l.ComesNext w p ∨
      ∃ u v, l.Matches (·.1.reads) u ∧ r.ComesNext v p ∧ u ++ v = w := by
  constructor
  · rintro ⟨before, a, after, h, rfl, rfl⟩
    obtain ⟨x, y, hx, hy, hxy⟩ := matches_concat_iff.mp h
    -- the leaf is in the left operand's word, or in the right one's
    rcases append_eq_append_cons hxy with ⟨after', rfl, -⟩ | ⟨before', rfl, rfl⟩
    · exact .inl ⟨before, a, after', hx, rfl, rfl⟩
    · exact .inr ⟨_, _, hx.flatMap _, ⟨before', a, after, hy, rfl, rfl⟩,
        List.flatMap_append.symm⟩
  · rintro (⟨before, a, after, h, rfl, rfl⟩ | ⟨u, v, hu, ⟨before, a, after, h, rfl, rfl⟩, rfl⟩)
    · obtain ⟨y, hy⟩ := r.exists_matches fun a => [a]
      exact ⟨before, a, after ++ y, by simpa using h.concat hy, rfl, rfl⟩
    · obtain ⟨x, hx, rfl⟩ := hl.exists_leaves hu
      exact ⟨x ++ before, a, after, by simpa using hx.concat h, rfl, List.flatMap_append⟩

/-- Before a leaf of the last round, some rounds are read. Rounds after it are of no
interest, as the body has some word to end its round with. -/
theorem comesNext_star_iff (he : e.Sequential) : (star e).ComesNext w p ↔
    ∃ u v, Repeated (e.Matches (·.1.reads)) u ∧ e.ComesNext v p ∧ u ++ v = w := by
  constructor
  · rintro ⟨before, a, after, h, rfl, rfl⟩
    obtain ⟨ws, hws, hflat⟩ := matches_star_iff.mp h
    -- the round that the leaf is in, and those before it
    obtain ⟨rounds, x, y, more, rfl, rfl, -⟩ := flatten_eq_append_cons hflat
    have hrounds : (star e).Matches (fun a => [a]) rounds.flatten :=
      matches_star_iff.mpr ⟨rounds, fun u hu => hws u (List.mem_append_left _ hu), rfl⟩
    exact ⟨_, _, matches_star_iff.mp (hrounds.flatMap _),
      ⟨x, a, y, hws _ (by simp), rfl, rfl⟩, List.flatMap_append.symm⟩
  · rintro ⟨u, v, hu, ⟨before, a, after, h, rfl, rfl⟩, rfl⟩
    have hstar : (star e).Sequential := he
    obtain ⟨x, hx, rfl⟩ := hstar.exists_leaves (matches_star_iff.mpr hu)
    refine ⟨x ++ before, a, after, matches_star_iff.mpr ?_, rfl, List.flatMap_append⟩
    rw [List.append_assoc]
    exact (matches_star_iff.mp hx).append (.single h)

end Expr

end PatternAutomata
