import PatternAutomata.Proofs.Positions.Ends

/-!
# Pattern automata — sequences of positions

The words of an expression over numbered letters, with every leaf read as its own
number. Which numbers can come right after one another is found at the
concatenations and repetitions (`follows_concat_iff`, `follows_star_iff`). Where
nothing is interleaved and no number is used twice, a sequence can go on from a
number in every way in which some sequence goes on from it (`exchange`), so
nothing else has to be known to put a sequence together.

## Results

* `follows_concat_iff`, `follows_star_iff` — neighbours in the words of an operator.
* `exchange`               — sequences that meet in a number can be crossed.
* `matches_iff_exists_leaves` — every reading of an expression is a reading of its leaves.
-/

namespace PatternAutomata

-- ---------------------------------------------------------------------------
-- Places in lists
-- ---------------------------------------------------------------------------

section Lists

variable {α : Type} {a b : α} {u v x y : List α} {ws : List (List α)}

theorem eq_nil_of_singleton_eq_append_cons (h : [b] = u ++ a :: v) : u = [] ∧ b = a := by
  cases u with
  | nil => exact ⟨rfl, (List.cons.inj h).1⟩
  | cons c u => exact absurd (List.cons.inj h).2 (by simp)

/-- An element of two lists in turn is in one of them, and what is before and after it
goes on into the other one. -/
theorem append_eq_append_cons (h : x ++ y = u ++ a :: v) :
    (∃ v', x = u ++ a :: v' ∧ v = v' ++ y) ∨ ∃ u', u = x ++ u' ∧ y = u' ++ a :: v := by
  induction x generalizing u with
  | nil => exact .inr ⟨u, rfl, h⟩
  | cons c x ih =>
    cases u with
    | nil =>
      obtain ⟨rfl, rfl⟩ := List.cons.inj h
      exact .inl ⟨x, rfl, rfl⟩
    | cons d u =>
      obtain ⟨rfl, htail⟩ := List.cons.inj h
      rcases ih htail with ⟨v', rfl, rfl⟩ | ⟨u', rfl, rfl⟩
      · exact .inl ⟨v', rfl, rfl⟩
      · exact .inr ⟨u', rfl, rfl⟩

/-- Neighbours in two lists in turn are neighbours in one of them, or meet between them.
In the last case they are the last of the one and the first of the other. -/
theorem append_eq_append_cons_cons (h : x ++ y = u ++ a :: b :: v) :
    (∃ v', x = u ++ a :: b :: v') ∨ (∃ u', y = u' ++ a :: b :: v) ∨
      x = u ++ [a] ∧ y = b :: v := by
  rcases append_eq_append_cons h with ⟨v', rfl, hv⟩ | ⟨u', -, hy⟩
  · cases v' with
    | nil => exact .inr (.inr ⟨rfl, hv.symm⟩)
    | cons c v' =>
      obtain ⟨rfl, -⟩ := List.cons.inj hv
      exact .inl ⟨v', rfl⟩
  · exact .inr (.inl ⟨u', hy⟩)

/-- An element of many lists in turn is in one of them, and what is before and behind it
in the whole is told from that one. -/
theorem flatten_eq_append_cons (h : ws.flatten = u ++ a :: v) :
    ∃ before x y after, ws = before ++ (x ++ a :: y) :: after ∧
      u = before.flatten ++ x ∧ v = y ++ after.flatten := by
  induction ws generalizing u with
  | nil => exact absurd h (by simp)
  | cons w ws ih =>
    rcases append_eq_append_cons h with ⟨y, rfl, rfl⟩ | ⟨u', rfl, hws⟩
    · exact ⟨[], u, y, ws, rfl, rfl, rfl⟩
    · obtain ⟨before, x, y, after, rfl, rfl, rfl⟩ := ih hws
      exact ⟨w :: before, x, y, after, rfl, by simp, rfl⟩

/-- Neighbours in many lists in turn are neighbours in one of them, or an end and a
beginning. Lists between the two can only be empty. -/
theorem flatten_eq_append_cons_cons (h : ws.flatten = u ++ a :: b :: v) :
    (∃ u' v', u' ++ a :: b :: v' ∈ ws) ∨ (∃ u', u' ++ [a] ∈ ws) ∧ ∃ v', b :: v' ∈ ws := by
  obtain ⟨before, x, y, after, rfl, -, hv⟩ := flatten_eq_append_cons h
  cases y with
  | cons c y =>
    obtain ⟨rfl, -⟩ := List.cons.inj hv
    exact .inl ⟨x, y, by simp⟩
  | nil =>
    have hafter : after.flatten = [] ++ b :: v := hv.symm
    obtain ⟨before', x', y', after', rfl, hx', -⟩ := flatten_eq_append_cons hafter
    obtain ⟨-, rfl⟩ := List.append_eq_nil_iff.mp hx'.symm
    exact .inr ⟨⟨x, by simp⟩, y', by simp⟩

end Lists

namespace Repeated

variable {σ : Type} {P : List σ → Prop} {u v : List σ}

theorem single (hu : P u) : Repeated P u := by
  rw [← List.append_nil u]
  exact cons hu repeated_nil

theorem append (hu : Repeated P u) (hv : Repeated P v) : Repeated P (u ++ v) := by
  obtain ⟨ws, hws, rfl⟩ := hu
  obtain ⟨ws', hws', rfl⟩ := hv
  refine ⟨ws ++ ws', fun w hw => ?_, List.flatten_append⟩
  exact (List.mem_append.mp hw).elim (hws w) (hws' w)

end Repeated

namespace Interleaving

variable {α β : Type} {a : α} {u v w : List α}

theorem mem_iff (h : Interleaving u v w) : a ∈ w ↔ a ∈ u ∨ a ∈ v := by
  induction h with
  | nil => simp
  | left _ ih => rw [List.mem_cons, ih, List.mem_cons, or_assoc]
  | right _ ih => rw [List.mem_cons, ih, List.mem_cons, or_left_comm]

/-- Letters may be replaced before words are interleaved or afterwards. -/
theorem map (h : Interleaving u v w) (f : α → β) :
    Interleaving (u.map f) (v.map f) (w.map f) := by
  induction h with
  | nil => exact .nil
  | left _ ih => exact .left ih
  | right _ ih => exact .right ih

/-- An interleaving of replaced letters comes from one of the letters, by induction on the
interleaving: each step takes a letter from the same side. -/
theorem exists_of_map {f : α → β} {x : List β} (h : Interleaving (u.map f) (v.map f) x) :
    ∃ w, Interleaving u v w ∧ w.map f = x := by
  generalize hu : u.map f = u', hv : v.map f = v' at h
  induction h generalizing u v with
  | nil =>
    rw [List.map_eq_nil_iff.mp hu, List.map_eq_nil_iff.mp hv]
    exact ⟨[], .nil, rfl⟩
  | left _ ih =>
    obtain ⟨a, u, rfl, rfl, rfl⟩ := List.map_eq_cons_iff.mp hu
    obtain ⟨w, hw, rfl⟩ := ih rfl hv
    exact ⟨a :: w, .left hw, rfl⟩
  | right _ ih =>
    obtain ⟨a, v, rfl, rfl, rfl⟩ := List.map_eq_cons_iff.mp hv
    obtain ⟨w, hw, rfl⟩ := ih hu rfl
    exact ⟨a :: w, .right hw, rfl⟩

/-- The same with words in the place of letters. These are kept together, so not every
interleaving comes in this way. -/
theorem flatMap (h : Interleaving u v w) (f : α → List β) :
    Interleaving (u.flatMap f) (v.flatMap f) (w.flatMap f) := by
  induction h with
  | nil => exact .nil
  | @left a u v w _ ih => exact ih.append_left (f a)
  | @right a u v w _ ih => exact ih.append_right (f a)

end Interleaving

namespace Expr

-- ---------------------------------------------------------------------------
-- Readings of leaves
-- ---------------------------------------------------------------------------

section Readings

variable {α β : Type} {e : Expr α} {as : List α} {w : List β}

/-- The words of an expression whose leaves read themselves are made of its leaves. (A
leaf may be used many times in a word, or not at all.) -/
theorem Matches.mem_leaves (h : e.Matches (fun a => [a]) as) : ∀ a ∈ as, a ∈ e.leaves := by
  induction h with
  | epsilon | starNil => exact fun a ha => absurd ha List.not_mem_nil
  | leaf a => exact fun b hb => hb
  | concat _ _ ihu ihv =>
    intro a ha
    exact List.mem_append.mpr ((List.mem_append.mp ha).imp (ihu a) (ihv a))
  | unionLeft _ ih => exact fun a ha => List.mem_append_left _ (ih a ha)
  | unionRight _ ih => exact fun a ha => List.mem_append_right _ (ih a ha)
  | shuffle _ _ hw ihu ihv =>
    intro a ha
    exact List.mem_append.mpr ((hw.mem_iff.mp ha).imp (ihu a) (ihv a))
  | starMore _ _ ihu ihv =>
    intro a ha
    exact (List.mem_append.mp ha).elim (ihu a) (ihv a)

/-- A word of leaves becomes a word of any other reading. The induction is on the
derivation, which stays the same but for its leaves. -/
theorem Matches.flatMap (h : e.Matches (fun a => [a]) as) (f : α → List β) :
    e.Matches f (as.flatMap f) := by
  induction h with
  | epsilon => exact .epsilon
  | leaf a =>
    rw [List.flatMap_singleton]
    exact .leaf a
  | concat _ _ ihu ihv =>
    rw [List.flatMap_append]
    exact .concat ihu ihv
  | unionLeft _ ih => exact .unionLeft ih
  | unionRight _ ih => exact .unionRight ih
  | shuffle _ _ hw ihu ihv => exact .shuffle ihu ihv (hw.flatMap f)
  | starNil => exact .starNil
  | starMore _ _ ihu ihv =>
    rw [List.flatMap_append]
    exact .starMore ihu ihv

/-- No expression is without words, as there is no expression for the empty language. -/
theorem exists_matches (read : α → List β) (e : Expr α) : ∃ w, e.Matches read w := by
  induction e with
  | epsilon => exact ⟨_, .epsilon⟩
  | leaf a => exact ⟨_, .leaf a⟩
  | concat l r ihl ihr =>
    obtain ⟨u, hu⟩ := ihl
    obtain ⟨v, hv⟩ := ihr
    exact ⟨_, .concat hu hv⟩
  | union l r ihl ihr => exact ihl.imp fun w hw => .unionLeft hw
  | shuffle l r ihl ihr =>
    obtain ⟨u, hu⟩ := ihl
    obtain ⟨v, hv⟩ := ihr
    exact ⟨_, .shuffle hu hv (.append u v)⟩
  | star e => exact ⟨_, .starNil⟩

/-- Every leaf is read in some word. What is beside it in the expression is filled up with
words of the other operands. -/
theorem exists_matches_of_mem_leaves {a : α} (ha : a ∈ e.leaves) :
    ∃ u v, e.Matches (fun a => [a]) (u ++ a :: v) := by
  induction e with
  | epsilon => exact absurd ha List.not_mem_nil
  | leaf b =>
    rw [List.mem_singleton.mp ha]
    exact ⟨[], [], .leaf b⟩
  | union l r ihl ihr =>
    rcases List.mem_append.mp ha with ha | ha
    · obtain ⟨u, v, h⟩ := ihl ha
      exact ⟨u, v, .unionLeft h⟩
    · obtain ⟨u, v, h⟩ := ihr ha
      exact ⟨u, v, .unionRight h⟩
  | concat l r ihl ihr =>
    rcases List.mem_append.mp ha with ha | ha
    · -- a word of the right operand comes behind
      obtain ⟨u, v, h⟩ := ihl ha
      obtain ⟨y, hy⟩ := r.exists_matches fun a => [a]
      exact ⟨u, v ++ y, by simpa using h.concat hy⟩
    · -- and one of the left operand comes before
      obtain ⟨u, v, h⟩ := ihr ha
      obtain ⟨x, hx⟩ := l.exists_matches fun a => [a]
      exact ⟨x ++ u, v, by simpa using hx.concat h⟩
  | shuffle l r ihl ihr =>
    rcases List.mem_append.mp ha with ha | ha
    · obtain ⟨u, v, h⟩ := ihl ha
      obtain ⟨y, hy⟩ := r.exists_matches fun a => [a]
      exact ⟨u, v ++ y, by simpa using h.shuffle hy (.append _ y)⟩
    · obtain ⟨u, v, h⟩ := ihr ha
      obtain ⟨x, hx⟩ := l.exists_matches fun a => [a]
      exact ⟨x ++ u, v, by simpa using hx.shuffle h (.append x _)⟩
  | star e ih =>
    obtain ⟨u, v, h⟩ := ih ha
    exact ⟨u, v, by simpa using h.starMore .starNil⟩

/-- If every leaf reads one thing, words are read letter by letter, so replacing the
letters of a word replaces what the leaves read. -/
theorem Matches.map (h : e.Matches (fun a => [a]) as) (f : α → β) :
    e.Matches (fun a => [f a]) (as.map f) := by
  induction h with
  | epsilon => exact .epsilon
  | leaf a => exact .leaf a
  | concat _ _ ihu ihv =>
    rw [List.map_append]
    exact .concat ihu ihv
  | unionLeft _ ih => exact .unionLeft ih
  | unionRight _ ih => exact .unionRight ih
  | shuffle _ _ hw ihu ihv => exact .shuffle ihu ihv (hw.map f)
  | starNil => exact .starNil
  | starMore _ _ ihu ihv =>
    rw [List.map_append]
    exact .starMore ihu ihv

/-- Every reading of an expression is a reading of its leaves, if each leaf reads one
thing. -/
theorem matches_iff_exists_leaves {f : α → β} :
    e.Matches (fun a => [f a]) w ↔ ∃ as, e.Matches (fun a => [a]) as ∧ as.map f = w := by
  constructor
  · intro h
    induction h with
    | epsilon => exact ⟨[], .epsilon, rfl⟩
    | leaf a => exact ⟨[a], .leaf a, rfl⟩
    | concat _ _ ihu ihv =>
      obtain ⟨as, has, rfl⟩ := ihu
      obtain ⟨bs, hbs, rfl⟩ := ihv
      exact ⟨as ++ bs, .concat has hbs, List.map_append⟩
    | unionLeft _ ih => exact ih.imp fun as has => ⟨.unionLeft has.1, has.2⟩
    | unionRight _ ih => exact ih.imp fun as has => ⟨.unionRight has.1, has.2⟩
    | shuffle _ _ hw ihu ihv =>
      obtain ⟨as, has, rfl⟩ := ihu
      obtain ⟨bs, hbs, rfl⟩ := ihv
      -- each leaf reads one thing, so the leaves are interleaved as what they read
      obtain ⟨cs, hcs, rfl⟩ := hw.exists_of_map
      exact ⟨cs, .shuffle has hbs hcs, rfl⟩
    | starNil => exact ⟨[], .starNil, rfl⟩
    | starMore _ _ ihu ihv =>
      obtain ⟨as, has, rfl⟩ := ihu
      obtain ⟨bs, hbs, rfl⟩ := ihv
      exact ⟨as ++ bs, .starMore has hbs, List.map_append⟩
  · rintro ⟨as, has, rfl⟩
    exact has.map f

end Readings

-- ---------------------------------------------------------------------------
-- Sequences of numbers
-- ---------------------------------------------------------------------------

/-- The word is a sequence of numbers of leaves. -/
def Passes (e : Expr (Letter × Nat)) (w : List Nat) : Prop := e.Matches (fun a => [a.2]) w

/-- Some sequence has `p` at this end. -/
def HasEnd (e : Expr (Letter × Nat)) (side : End) (p : Nat) : Prop :=
  ∃ w, e.Passes (side.attach p w)

/-- Some sequence has `q` right after `p`. -/
def Follows (e : Expr (Letter × Nat)) (p q : Nat) : Prop := ∃ u v, e.Passes (u ++ p :: q :: v)

/-- The numbers of the leaves. -/
def numbers (e : Expr (Letter × Nat)) : List Nat := e.leaves.map (·.2)

/-- Nothing is interleaved. -/
def Sequential {α : Type} : Expr α → Prop
  | epsilon | leaf _ => True
  | concat l r | union l r => l.Sequential ∧ r.Sequential
  | shuffle _ _ => False
  | star e => e.Sequential

variable {e l r : Expr (Letter × Nat)} {p q : Nat} {u v u' v' w : List Nat}

theorem Passes.mem_numbers (h : e.Passes w) (hp : p ∈ w) : p ∈ e.numbers := by
  obtain ⟨as, has, rfl⟩ := matches_iff_exists_leaves.mp h
  obtain ⟨a, ha, rfl⟩ := List.mem_map.mp hp
  exact List.mem_map_of_mem (has.mem_leaves a ha)

theorem exists_passes (e : Expr (Letter × Nat)) : ∃ w, e.Passes w := e.exists_matches _

/-- Every number is in some sequence. -/
theorem exists_passes_of_mem_numbers (hp : p ∈ e.numbers) : ∃ u v, e.Passes (u ++ p :: v) := by
  obtain ⟨a, ha, rfl⟩ := List.mem_map.mp hp
  obtain ⟨u, v, h⟩ := exists_matches_of_mem_leaves ha
  have hpasses : e.Passes ((u ++ a :: v).map (·.2)) := h.map Prod.snd
  rw [List.map_append, List.map_cons] at hpasses
  exact ⟨_, _, hpasses⟩

-- ---------------------------------------------------------------------------
-- Neighbours
-- ---------------------------------------------------------------------------

theorem not_follows_epsilon : ¬ (epsilon : Expr (Letter × Nat)).Follows p q := by
  rintro ⟨u, v, h⟩
  exact absurd (matches_epsilon_iff.mp h) (by simp)

theorem not_follows_leaf {a : Letter × Nat} : ¬ (leaf a).Follows p q := by
  rintro ⟨u, v, h⟩
  have hlength := congrArg List.length (matches_leaf_iff.mp h)
  simp only [List.length_append, List.length_cons, List.length_nil] at hlength
  omega

theorem follows_union_iff : (union l r).Follows p q ↔ l.Follows p q ∨ r.Follows p q := by
  simp only [Follows, Passes, matches_union_iff, exists_or]

/-- Neighbours in a concatenation are neighbours in an operand, or an end of the left one
and a beginning of the right one. -/
theorem follows_concat_iff : (concat l r).Follows p q ↔
    l.Follows p q ∨ r.Follows p q ∨ l.HasEnd .back p ∧ r.HasEnd .front q := by
  constructor
  · rintro ⟨u, v, h⟩
    obtain ⟨x, y, hx, hy, hxy⟩ := matches_concat_iff.mp h
    -- both on the left, both on the right, or one on each side
    rcases append_eq_append_cons_cons hxy with ⟨v', rfl⟩ | ⟨u', rfl⟩ | ⟨rfl, rfl⟩
    · exact .inl ⟨u, v', hx⟩
    · exact .inr (.inl ⟨u', v, hy⟩)
    · exact .inr (.inr ⟨⟨u, hx⟩, v, hy⟩)
  · rintro (⟨u, v, h⟩ | ⟨u, v, h⟩ | ⟨⟨u, hu⟩, v, hv⟩)
    · obtain ⟨y, hy⟩ := r.exists_passes
      exact ⟨u, v ++ y, by simpa [Passes] using Matches.concat h hy⟩
    · obtain ⟨x, hx⟩ := l.exists_passes
      exact ⟨x ++ u, v, by simpa [Passes] using Matches.concat hx h⟩
    · exact ⟨u, v, by simpa [Passes, End.attach] using Matches.concat hu hv⟩

/-- Neighbours in a repetition are neighbours in a round, or an end of one and a beginning
of another. -/
theorem follows_star_iff : (star e).Follows p q ↔
    e.Follows p q ∨ (star e).HasEnd .back p ∧ (star e).HasEnd .front q := by
  constructor
  · rintro ⟨u, v, h⟩
    obtain ⟨ws, hws, hflat⟩ := matches_star_iff.mp h
    rcases flatten_eq_append_cons_cons hflat with ⟨u', v', hmem⟩ | ⟨⟨u', hu'⟩, v', hv'⟩
    · exact .inl ⟨u', v', hws _ hmem⟩
    · exact .inr ⟨⟨u', matches_star_iff.mpr (.single (hws _ hu'))⟩,
        v', matches_star_iff.mpr (.single (hws _ hv'))⟩
  · rintro (⟨u, v, h⟩ | ⟨⟨u, hu⟩, v, hv⟩)
    · exact ⟨u, v, matches_star_iff.mpr (.single h)⟩
    · refine ⟨u, v, matches_star_iff.mpr ?_⟩
      have hboth := (matches_star_iff.mp hu).append (matches_star_iff.mp hv)
      simpa [End.attach] using hboth

-- ---------------------------------------------------------------------------
-- Crossing
-- ---------------------------------------------------------------------------

/-- Operands whose leaves have different numbers have no number in common. -/
theorem nodup_numbers_binary (h : ((l.leaves ++ r.leaves).map (·.2)).Nodup) :
    l.numbers.Nodup ∧ r.numbers.Nodup ∧ ∀ p ∈ l.numbers, p ∉ r.numbers := by
  rw [List.map_append, List.nodup_append] at h
  exact ⟨h.1, h.2.1, fun p hp hp' => h.2.2 p hp p hp' rfl⟩

/-- Two sequences that meet in a number can be crossed there, if no number stands for two
leaves. So what can come after a number does not depend on how one got there. The
induction is on the expression: both sequences meet within one operand, where they are
crossed, and the rest of each is taken over as it is. -/
theorem exchange (hseq : e.Sequential) (hnodup : e.numbers.Nodup)
    (h : e.Passes (u ++ p :: v)) (h' : e.Passes (u' ++ p :: v')) : e.Passes (u ++ p :: v') := by
  induction e generalizing u v u' v' with
  | epsilon => exact absurd (matches_epsilon_iff.mp h) (by simp)
  | leaf a =>
    have hone : ∀ {x y : List Nat}, (leaf a).Passes (x ++ p :: y) → x = [] ∧ y = [] := by
      intro x y hxy
      have hlength := congrArg List.length (matches_leaf_iff.mp hxy)
      simp only [List.length_append, List.length_cons, List.length_nil] at hlength
      exact ⟨List.eq_nil_of_length_eq_zero (by omega), List.eq_nil_of_length_eq_zero (by omega)⟩
    obtain ⟨rfl, -⟩ := hone h
    obtain ⟨rfl, rfl⟩ := hone h'
    exact h'
  | shuffle l r => exact absurd hseq id
  | union l r ihl ihr =>
    obtain ⟨hl, hr, hapart⟩ := nodup_numbers_binary hnodup
    rcases matches_union_iff.mp h with hu | hu <;> rcases matches_union_iff.mp h' with hv | hv
    · exact .unionLeft (ihl hseq.1 hl hu hv)
    · exact absurd (Passes.mem_numbers hv (by simp)) (hapart p (Passes.mem_numbers hu (by simp)))
    · exact absurd (Passes.mem_numbers hu (by simp)) (hapart p (Passes.mem_numbers hv (by simp)))
    · exact .unionRight (ihr hseq.2 hr hu hv)
  | concat l r ihl ihr =>
    obtain ⟨hl, hr, hapart⟩ := nodup_numbers_binary hnodup
    obtain ⟨x, y, hx, hy, hxy⟩ := matches_concat_iff.mp h
    obtain ⟨x', y', hx', hy', hxy'⟩ := matches_concat_iff.mp h'
    -- the number is in one operand, so it cannot be on the left in one sequence and on
    -- the right in the other
    rcases append_eq_append_cons hxy with ⟨v₁, rfl, rfl⟩ | ⟨u₁, rfl, rfl⟩ <;>
      rcases append_eq_append_cons hxy' with ⟨v₂, rfl, rfl⟩ | ⟨u₂, rfl, rfl⟩
    · rw [← List.cons_append, ← List.append_assoc]
      exact .concat (ihl hseq.1 hl hx hx') hy'
    · exact absurd (Passes.mem_numbers hy' (by simp)) (hapart p (Passes.mem_numbers hx (by simp)))
    · exact absurd (Passes.mem_numbers hy (by simp)) (hapart p (Passes.mem_numbers hx' (by simp)))
    · rw [List.append_assoc]
      exact .concat hx (ihr hseq.2 hr hy hy')
  | star e ih =>
    obtain ⟨ws, hws, hflat⟩ := matches_star_iff.mp h
    obtain ⟨ws', hws', hflat'⟩ := matches_star_iff.mp h'
    obtain ⟨before, x, y, after, rfl, rfl, rfl⟩ := flatten_eq_append_cons hflat
    obtain ⟨before', x', y', after', rfl, rfl, rfl⟩ := flatten_eq_append_cons hflat'
    -- the rounds before it from the one sequence, and those after it from the other
    refine matches_star_iff.mpr ⟨before ++ (x ++ p :: y') :: after', fun w hw => ?_, by simp⟩
    simp only [List.mem_append, List.mem_cons] at hws hws' hw
    rcases hw with hw | rfl | hw
    · exact hws w (.inl hw)
    · exact ih hseq hnodup (hws _ (.inr (.inl rfl))) (hws' _ (.inr (.inl rfl)))
    · exact hws' w (.inr (.inr hw))

end Expr

end PatternAutomata
