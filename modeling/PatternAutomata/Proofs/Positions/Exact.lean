import PatternAutomata.Proofs.Direct
import PatternAutomata.Proofs.Parser.RoundTrip

/-!
# Pattern automata — what is known about positions

Everything that is computed about the positions of a pattern answers a question
about its sequences of positions, and the answer is right. The two passes say of
each node, interleaved or not, whether the empty sequence is among its sequences,
and what these begin and end with. The table says of each position of a tree
without interleavings what comes right after it in a sequence of the whole tree:
nothing after the end marker, which is last, and something after every other
position.

## Results

* `not_follows_end`, `exists_follows` — the end marker's position is the last one.
* `annotations_exact` — the passes are right about every node of what compiles.
* `followTable_exact` — and the table about every position, if nothing is interleaved.
-/

namespace PatternAutomata

-- ---------------------------------------------------------------------------
-- Nodes
-- ---------------------------------------------------------------------------

/-- What the passes say of a node is right: whether it can stand for the empty word, in which
they agree, and which positions are at the two ends of its sequences. -/
structure Annotations.Answers (t : ParseTree) (a : Annotations) (id : Nat) : Prop where
  nullable : ∃ b, a.nullable id = .ok b ∧ a.nullableLast id = .ok b ∧ (b = true ↔ t.Passes id [])
  first : ∃ set, a.first id = .ok set ∧ ∀ p, p ∈ set ↔ ∃ w, t.Passes id (p :: w)
  last : ∃ set, a.last id = .ok set ∧ ∀ p, p ∈ set ↔ ∃ w, t.Passes id (w ++ [p])

/-- What is known of the tables is what is answered when they are asked. That a node is
empty is asked of both passes, which agree. -/
theorem Annotations.Exact.answers {t : ParseTree} {a : Annotations} {id : Nat} (h : a.Exact t)
    (hid : id < t.nodes.length) : a.Answers t id where
  nullable := by
    obtain ⟨front, hfront, hexact⟩ := h.front id hid
    obtain ⟨back, hback, hexact'⟩ := h.back id hid
    refine ⟨front.nullable, ?_, ?_, hexact.nullable_iff⟩
    · rw [Annotations.nullable, hfront]
      rfl
    · rw [Annotations.nullableLast, hback, hexact.nullable_eq hexact']
      rfl
  first := h.first_eq hid
  last := h.last_eq hid

/-- **Annotations are exact**: the passes are right about every node of a pattern that
compiles. They are made in any case, as the comparison of what they say of empty sequences
never fails. -/
theorem annotations_exact {o : Options} {pattern : String} {t : ParseTree}
    (h : compile o pattern = .ok t) :
    ∃ a, Annotations.ofTree t = .ok a ∧ ∀ id < t.nodes.length, a.Answers t id := by
  obtain ⟨body, -, rfl⟩ := compile_eq_ok_iff.mp h
  obtain ⟨a, ha, hexact⟩ := Annotations.exists_annotations ParseTree.childrenFirst_ofExpr
    (t := .ofExpr pattern o.dialect body)
  exact ⟨a, ha, fun _ => hexact.answers⟩

/-- With an interleaving below a repetition, and with operands that are left out. -/
theorem annotations_exact_of_repeated_interleaving :
    ∃ t, compile { dialect := .parallel } "((a|)&b*)*c" = .ok t ∧
      ∃ a, Annotations.ofTree t = .ok a ∧ ∀ id < t.nodes.length, a.Answers t id := by
  have hscan : firstError? { dialect := .parallel } "((a|)&b*)*c" = none := by decide
  obtain ⟨body, h⟩ := exists_compile_eq_ok hscan
  exact ⟨_, h, annotations_exact h⟩

-- ---------------------------------------------------------------------------
-- Neighbours
-- ---------------------------------------------------------------------------

namespace ParseTree

variable {pattern : String} {d : Dialect} {body : Expr Char} {p q : Nat}

/-- Nothing comes after the end marker. -/
theorem not_follows_end : ¬ body.marked.Follows (body.width + 1) q := by
  rintro ⟨u, v, h⟩
  exact absurd (passes_marked_end h).2 (List.cons_ne_nil q v)

/-- Something comes after every other position, as the sequences it is in end with the end
marker. -/
theorem exists_follows (hp : p ∈ body.marked.numbers) (hne : p ≠ body.width + 1) :
    ∃ q, body.marked.Follows p q := by
  obtain ⟨u, v, h⟩ := Expr.exists_passes_of_mem_numbers hp
  cases v with
  | cons q v => exact ⟨q, u, v, h⟩
  | nil =>
    obtain ⟨x, -, heq⟩ := passes_marked_iff.mp h
    exact absurd (List.cons.inj (List.append_inj' heq rfl).2).1 hne

end ParseTree

/-- An entry of the table can be looked up for every position. -/
theorem FollowTable.get_eq_ok {f : FollowTable} {p : Nat} (hpos : 1 ≤ p) (hle : p ≤ f.sets.size) :
    f.get p = .ok (f.nexts p) := by
  obtain ⟨i, rfl⟩ := Nat.exists_eq_add_of_le' hpos
  exact Rows.lookup_eq_ok hle ∅

/-- What is looked up in the passes are positions of the tree. -/
theorem ParseTree.end_in_range {pattern : String} {d : Dialect} {body : Expr Char} {side : End}
    {id p : Nat} (h : (ofExpr pattern d body).HasEnd side id p) :
    1 ≤ p ∧ p ≤ (ofExpr pattern d body).endPosition :=
  mem_numbers_marked_iff.mp h.mem_numbers

/-- The table has an entry for every position of the tree, which says what can come right
after it: positions of the tree again, and none only after the end marker. Whatever the
passes give to be linked is a position of the tree. -/
structure FollowTable.Answers (t : ParseTree) (a : Annotations) (f : FollowTable) : Prop where
  length_eq : f.length = t.endPosition
  get : ∀ p, 1 ≤ p → p ≤ t.endPosition → ∃ set, f.get p = .ok set ∧
    (∀ q, q ∈ set ↔ ∃ u v, t.Passes t.root (u ++ p :: q :: v)) ∧
    (∀ q ∈ set, 1 ≤ q ∧ q ≤ t.endPosition) ∧ (set = ∅ ↔ p = t.endPosition)
  first_le : ∀ id < t.nodes.length, ∃ set, a.first id = .ok set ∧
    ∀ p ∈ set, 1 ≤ p ∧ p ≤ t.endPosition
  last_le : ∀ id < t.nodes.length, ∃ set, a.last id = .ok set ∧
    ∀ p ∈ set, 1 ≤ p ∧ p ≤ t.endPosition

/-- **Next positions are exact**: where nothing is interleaved, the table of a pattern
that compiles is made, and it is right about every position. Only the end marker has
nothing behind it. -/
theorem followTable_exact {o : Options} {pattern : String} {t : ParseTree}
    (h : compile o pattern = .ok t) (hshuffle : t.hasShuffle = false) :
    ∃ a f, Annotations.ofTree t = .ok a ∧ FollowTable.ofTree t a = .ok f ∧ f.Answers t a := by
  obtain ⟨body, -, rfl⟩ := compile_eq_ok_iff.mp h
  obtain ⟨a, ha, hexact⟩ := Annotations.exists_annotations ParseTree.childrenFirst_ofExpr
    (t := .ofExpr pattern o.dialect body)
  obtain ⟨f, hf, hsize, hfollows⟩ := ParseTree.exists_followTable hexact hshuffle
  refine ⟨a, f, ha, hf, { length_eq := hsize, get := ?_, first_le := ?_, last_le := ?_ }⟩
  · intro p hpos hle
    have hp := ParseTree.mem_numbers_marked_iff.mpr ⟨hpos, hle⟩
    have hmem := hfollows p hp
    refine ⟨f.nexts p, FollowTable.get_eq_ok hpos (hsize ▸ hle), fun q => ?_, fun q hq => ?_, ?_⟩
    · rw [hmem, Expr.Follows]
      exact exists₂_congr fun _ _ => ParseTree.passes_root_iff.symm
    · obtain ⟨u, v, hpasses⟩ := (hmem q).mp hq
      exact ParseTree.mem_numbers_marked_iff.mp (hpasses.mem_numbers (by simp))
    · -- something comes after every position but the last one
      rw [ParseTree.endPosition_ofExpr]
      constructor
      · intro hempty
        refine Decidable.byContradiction fun hne => ?_
        obtain ⟨q, hq⟩ := ParseTree.exists_follows hp hne
        exact SortedSet.not_mem_empty (hempty ▸ (hmem q).mpr hq)
      · rintro rfl
        exact SortedSet.ext fun q => by simp [hmem, ParseTree.not_follows_end]
  · intro id hid
    obtain ⟨set, hset, hmem⟩ := hexact.first_eq hid
    exact ⟨set, hset, fun p hp => ParseTree.end_in_range ((hmem p).mp hp)⟩
  · intro id hid
    obtain ⟨set, hset, hmem⟩ := hexact.last_eq hid
    exact ⟨set, hset, fun p hp => ParseTree.end_in_range ((hmem p).mp hp)⟩

/-- With a repetition below a repetition that can begin and end with it. -/
theorem followTable_exact_of_nested_repetition :
    ∃ t, compile {} "(a*(b|)a*)*b" = .ok t ∧ t.hasShuffle = false ∧
      ∃ a f, Annotations.ofTree t = .ok a ∧ FollowTable.ofTree t a = .ok f ∧ f.Answers t a := by
  let e : Expr Char :=
    .concat (.star (.concat (.concat (.star (.leaf 'a')) (.union (.leaf 'b') .epsilon))
      (.star (.leaf 'a')))) (.leaf 'b')
  have htext : String.ofList e.pattern = "(a*(b|)a*)*b" := by cbv
  have h : compile {} "(a*(b|)a*)*b" = .ok (.ofExpr _ .plain e) :=
    compile_eq_ok_of_pattern htext (by decide) (by decide)
  have hshuffle : (ParseTree.ofExpr "(a*(b|)a*)*b" .plain e).hasShuffle = false := by decide
  exact ⟨_, h, hshuffle, followTable_exact h hshuffle⟩

end PatternAutomata
