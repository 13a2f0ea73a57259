/-!
# Pattern automata — sorted sets

Alphabets, sets of states and sets of positions are finite sets that are
printed, compared and used as keys, so each has one representation: the
strictly increasing list of its members. The order comes from a `rank`, a
natural number that tells the members apart (a state is its own rank, a
character has its code point).

## Results

* `SortedSet.ext`        — two sets with the same members are equal.
* `mem_insert`, `mem_erase`, `mem_union`, `mem_unions`, `mem_filter`, `mem_ofList`,
  `mem_shift` — what each operation does to the members.
-/

namespace PatternAutomata

/-- Types whose elements are ordered by a natural number that tells them apart. A single
number per element is all the order that is needed, so nothing about linear orders is
carried along. -/
class Ranked (α : Type) where
  rank : α → Nat
  rank_injective : ∀ a b, rank a = rank b → a = b

instance : Ranked Nat where
  rank n := n
  rank_injective _ _ h := h

instance : Ranked Char where
  rank c := c.toNat
  rank_injective _ _ h := Char.ext (UInt32.toNat_inj.mp h)

/-- A finite set, held as the strictly increasing list of its members. The list is part of
what is printed and of what states are labelled with, so the order is data and not only a
proof. -/
structure SortedSet (α : Type) [Ranked α] where
  toList : List α := []
  sorted : toList.Pairwise (fun x y => Ranked.rank x < Ranked.rank y) := by simp

namespace SortedSet

open Ranked

variable {α : Type} [Ranked α]

-- ---------------------------------------------------------------------------
-- Increasing lists
-- ---------------------------------------------------------------------------

/-- Adds `a` to an increasing list, at its place, unless it is there. -/
def insertList (a : α) : List α → List α
  | [] => [a]
  | b :: rest =>
    if rank a < rank b then a :: b :: rest
    else if rank b < rank a then b :: insertList a rest
    else b :: rest

/-- Merges two increasing lists; what both hold is taken once. -/
def mergeList : List α → List α → List α
  | [], bs => bs
  | a :: as, [] => a :: as
  | a :: as, b :: bs =>
    if rank a < rank b then a :: mergeList as (b :: bs)
    else if rank b < rank a then b :: mergeList (a :: as) bs
    else a :: mergeList as bs
termination_by as bs => as.length + bs.length

/-- Elements whose ranks are ordered neither way are the same. -/
theorem eq_of_rank_not_lt {a b : α} (hab : ¬ rank a < rank b) (hba : ¬ rank b < rank a) :
    a = b :=
  rank_injective a b (by omega)

/-- The new element is there, and so is all that was there; a double is not kept. -/
theorem mem_insertList {a x : α} {l : List α} : x ∈ insertList a l ↔ x = a ∨ x ∈ l := by
  induction l with
  | nil => simp [insertList]
  | cons b rest ih =>
    unfold insertList
    -- before the head, behind it, or at it
    by_cases hab : rank a < rank b
    · simp [hab]
    · by_cases hba : rank b < rank a
      · simp only [hab, hba, if_true, if_false, List.mem_cons, ih]
        exact or_left_comm
      · obtain rfl := eq_of_rank_not_lt hab hba
        simp

/-- The new element goes between the smaller and the larger ones, so the list stays
increasing. -/
theorem sorted_insertList {a : α} {l : List α}
    (h : l.Pairwise (fun a b => rank a < rank b)) :
    (insertList a l).Pairwise (fun a b => rank a < rank b) := by
  induction l with
  | nil => simp [insertList]
  | cons b rest ih =>
    obtain ⟨hb, hrest⟩ := List.pairwise_cons.mp h
    unfold insertList
    by_cases hab : rank a < rank b
    · simp only [hab, if_true]
      refine List.pairwise_cons.mpr ⟨fun x hx => ?_, h⟩
      rcases List.mem_cons.mp hx with rfl | hx
      · exact hab
      · exact Nat.lt_trans hab (hb x hx)
    · by_cases hba : rank b < rank a
      · simp only [hab, hba, if_true, if_false]
        refine List.pairwise_cons.mpr ⟨fun x hx => ?_, ih hrest⟩
        rcases mem_insertList.mp hx with rfl | hx
        · exact hba
        · exact hb x hx
      · simpa only [hab, hba, if_false] using h

/-- A merge holds what either list holds. -/
theorem mem_mergeList {x : α} {as bs : List α} :
    x ∈ mergeList as bs ↔ x ∈ as ∨ x ∈ bs := by
  fun_induction mergeList as bs with
  | case1 => simp
  | case2 => simp
  | case3 a as b bs hab ih => simp only [List.mem_cons, ih, or_assoc]
  | case4 a as b bs hab hba ih =>
    simp only [List.mem_cons, ih]
    exact or_left_comm
  | case5 a as b bs hab hba ih =>
    obtain rfl := eq_of_rank_not_lt hab hba
    simp only [List.mem_cons, ih]
    grind

/-- The smaller head goes first, and all that follows it in either list is larger. -/
theorem sorted_mergeList {as bs : List α}
    (ha : as.Pairwise (fun a b => rank a < rank b))
    (hb : bs.Pairwise (fun a b => rank a < rank b)) :
    (mergeList as bs).Pairwise (fun a b => rank a < rank b) := by
  fun_induction mergeList as bs with
  | case1 => exact hb
  | case2 => exact ha
  | case3 a as b bs hab ih =>
    obtain ⟨ha', has⟩ := List.pairwise_cons.mp ha
    refine List.pairwise_cons.mpr ⟨fun x hx => ?_, ih has hb⟩
    rcases mem_mergeList.mp hx with hx | hx
    · exact ha' x hx
    · rcases List.mem_cons.mp hx with rfl | hx
      · exact hab
      · exact Nat.lt_trans hab ((List.pairwise_cons.mp hb).1 x hx)
  | case4 a as b bs hab hba ih =>
    obtain ⟨hb', hbs⟩ := List.pairwise_cons.mp hb
    refine List.pairwise_cons.mpr ⟨fun x hx => ?_, ih ha hbs⟩
    rcases mem_mergeList.mp hx with hx | hx
    · rcases List.mem_cons.mp hx with rfl | hx
      · exact hba
      · exact Nat.lt_trans hba ((List.pairwise_cons.mp ha).1 x hx)
    · exact hb' x hx
  -- equal heads: one of the two is taken, and both tails lie above it
  | case5 a as b bs hab hba ih =>
    obtain rfl := eq_of_rank_not_lt hab hba
    obtain ⟨ha', has⟩ := List.pairwise_cons.mp ha
    obtain ⟨hb', hbs⟩ := List.pairwise_cons.mp hb
    refine List.pairwise_cons.mpr ⟨fun x hx => ?_, ih has hbs⟩
    rcases mem_mergeList.mp hx with hx | hx
    · exact ha' x hx
    · exact hb' x hx

/-- A list that increases in `f` is determined by its members: the head of each list is
its least member, so the heads are equal, and what is left has the same members again.
This is what makes two sets, and two maps, with the same contents equal as data. -/
theorem increasing_ext {β : Type} {f : β → Nat} {as bs : List β}
    (ha : as.Pairwise (fun x y => f x < f y)) (hb : bs.Pairwise (fun x y => f x < f y))
    (h : ∀ x, x ∈ as ↔ x ∈ bs) : as = bs := by
  induction as generalizing bs with
  | nil =>
    cases bs with
    | nil => rfl
    | cons b bs => exact absurd ((h b).mpr List.mem_cons_self) List.not_mem_nil
  | cons a as ih =>
    cases bs with
    | nil => exact absurd ((h a).mp List.mem_cons_self) List.not_mem_nil
    | cons b bs =>
      obtain ⟨ha', has⟩ := List.pairwise_cons.mp ha
      obtain ⟨hb', hbs⟩ := List.pairwise_cons.mp hb
      -- each head is in the other list, so neither can be below the other
      have hab : a = b := by
        rcases List.mem_cons.mp ((h a).mp List.mem_cons_self) with hab | hab
        · exact hab
        · rcases List.mem_cons.mp ((h b).mpr List.mem_cons_self) with hba | hba
          · exact hba.symm
          · exact absurd (Nat.lt_trans (hb' a hab) (ha' b hba)) (Nat.lt_irrefl _)
      subst hab
      refine congrArg (a :: ·) (ih has hbs fun x => ?_)
      constructor
      · intro hx
        rcases List.mem_cons.mp ((h x).mp (List.mem_cons_of_mem _ hx)) with rfl | hx'
        · exact absurd (ha' _ hx) (Nat.lt_irrefl _)
        · exact hx'
      · intro hx
        rcases List.mem_cons.mp ((h x).mpr (List.mem_cons_of_mem _ hx)) with rfl | hx'
        · exact absurd (hb' _ hx) (Nat.lt_irrefl _)
        · exact hx'

-- ---------------------------------------------------------------------------
-- Operations
-- ---------------------------------------------------------------------------

instance : Membership α (SortedSet α) where
  mem s a := a ∈ s.toList

instance : EmptyCollection (SortedSet α) where
  emptyCollection := {}

instance : Inhabited (SortedSet α) := ⟨∅⟩

instance [DecidableEq α] : DecidableEq (SortedSet α) := fun s t =>
  decidable_of_iff (s.toList = t.toList)
    ⟨fun h => by cases s; cases t; cases h; rfl, fun h => h ▸ rfl⟩

instance [DecidableEq α] (a : α) (s : SortedSet α) : Decidable (a ∈ s) :=
  inferInstanceAs (Decidable (a ∈ s.toList))

def singleton (a : α) : SortedSet α where
  toList := [a]

def isEmpty (s : SortedSet α) : Bool := s.toList.isEmpty

/-- The set with `a` in it; nothing changes if it was there. -/
def insert (s : SortedSet α) (a : α) : SortedSet α where
  toList := insertList a s.toList
  sorted := sorted_insertList s.sorted

def erase [DecidableEq α] (s : SortedSet α) (a : α) : SortedSet α where
  toList := s.toList.filter (· ≠ a)
  sorted := s.sorted.filter _

/-- What either set holds, by one merge of the two lists. -/
def union (s t : SortedSet α) : SortedSet α where
  toList := mergeList s.toList t.toList
  sorted := sorted_mergeList s.sorted t.sorted

instance : Union (SortedSet α) := ⟨union⟩

def filter (p : α → Bool) (s : SortedSet α) : SortedSet α where
  toList := s.toList.filter p
  sorted := s.sorted.filter p

/-- Unites the sets of a list two by two, which halves it. -/
def mergePairs : List (SortedSet α) → List (SortedSet α)
  | s :: t :: rest => (s ∪ t) :: mergePairs rest
  | sets => sets

/-- Uniting in pairs makes no more sets than there were. This is why `unions` ends. -/
theorem length_mergePairs_le (sets : List (SortedSet α)) :
    (mergePairs sets).length ≤ sets.length := by
  fun_induction mergePairs sets with
  | case1 s t rest ih => simp only [List.length_cons]; omega
  | case2 => exact Nat.le_refl _

/-- The members of all sets of a list. Sets of like size are united with each other, so that
no member takes part in more than a few unions. -/
def unions : List (SortedSet α) → SortedSet α
  | [] => ∅
  | [s] => s
  | s :: t :: rest => unions ((s ∪ t) :: mergePairs rest)
termination_by sets => sets.length
decreasing_by
  have := length_mergePairs_le rest
  simp only [List.length_cons]
  omega

/-- The set of what a list holds, in whatever order and however often the list holds it. -/
def ofList (l : List α) : SortedSet α :=
  unions (l.map singleton)

/-- The numbers of `s`, each raised by `offset`. -/
def shift (offset : Nat) (s : SortedSet Nat) : SortedSet Nat where
  toList := s.toList.map (· + offset)
  sorted := List.pairwise_map.mpr
    (s.sorted.imp fun h => Nat.add_lt_add_right h offset)

-- ---------------------------------------------------------------------------
-- Members
-- ---------------------------------------------------------------------------

/-- Two sets with the same members are equal. -/
theorem ext {s t : SortedSet α} (h : ∀ a, a ∈ s ↔ a ∈ t) : s = t := by
  have hl : s.toList = t.toList := increasing_ext s.sorted t.sorted h
  cases s
  cases t
  cases hl
  rfl

@[simp] theorem mem_toList {a : α} {s : SortedSet α} : a ∈ s.toList ↔ a ∈ s := Iff.rfl

@[simp] theorem not_mem_empty {a : α} : ¬ a ∈ (∅ : SortedSet α) := List.not_mem_nil

@[simp] theorem mem_singleton {a b : α} : a ∈ singleton b ↔ a = b := List.mem_singleton

@[simp] theorem mem_insert {s : SortedSet α} {a x : α} :
    x ∈ s.insert a ↔ x = a ∨ x ∈ s := mem_insertList

@[simp] theorem mem_erase [DecidableEq α] {s : SortedSet α} {a x : α} :
    x ∈ s.erase a ↔ x ∈ s ∧ x ≠ a := by
  show x ∈ s.toList.filter _ ↔ _
  simp

@[simp] theorem mem_union {s t : SortedSet α} {x : α} : x ∈ s ∪ t ↔ x ∈ s ∨ x ∈ t :=
  mem_mergeList

@[simp] theorem mem_filter {p : α → Bool} {s : SortedSet α} {x : α} :
    x ∈ s.filter p ↔ x ∈ s ∧ p x = true := by
  show x ∈ s.toList.filter p ↔ _
  simp

/-- Uniting in pairs loses no members and brings in none. -/
theorem exists_mem_mergePairs {sets : List (SortedSet α)} {x : α} :
    (∃ s ∈ mergePairs sets, x ∈ s) ↔ ∃ s ∈ sets, x ∈ s := by
  fun_induction mergePairs sets with
  | case1 s t rest ih =>
    simp only [List.mem_cons, exists_eq_or_imp, mem_union, ih]
    exact or_assoc
  | case2 => rfl

/-- A union of many sets holds what one of them holds, whatever sets were united first. -/
@[simp] theorem mem_unions {sets : List (SortedSet α)} {x : α} :
    x ∈ unions sets ↔ ∃ s ∈ sets, x ∈ s := by
  fun_induction unions sets with
  | case1 => simp
  | case2 s => simp
  | case3 s t rest ih =>
    simp only [ih, List.mem_cons, exists_eq_or_imp, exists_mem_mergePairs, mem_union]
    exact or_assoc

/-- Sorting a list and leaving out what it repeats keeps its members. -/
@[simp] theorem mem_ofList {l : List α} {x : α} : x ∈ ofList l ↔ x ∈ l := by
  rw [ofList, mem_unions]
  constructor
  · rintro ⟨_, hs, hx⟩
    obtain ⟨a, ha, rfl⟩ := List.mem_map.mp hs
    exact mem_singleton.mp hx ▸ ha
  · exact fun hx => ⟨_, List.mem_map_of_mem hx, mem_singleton.mpr rfl⟩

@[simp] theorem mem_shift {offset x : Nat} {s : SortedSet Nat} :
    x ∈ s.shift offset ↔ ∃ y ∈ s, y + offset = x := by
  show x ∈ s.toList.map _ ↔ _
  simp

/-- A set is empty if its list is, which is to say that nothing is a member. -/
@[simp] theorem isEmpty_iff {s : SortedSet α} : s.isEmpty = true ↔ ∀ a, ¬ a ∈ s := by
  show s.toList.isEmpty = true ↔ ∀ a, ¬ a ∈ s.toList
  simp [List.eq_nil_iff_forall_not_mem]

/-- A set that is not empty has a member to start from. -/
theorem ne_empty_iff {s : SortedSet α} : s ≠ ∅ ↔ ∃ a, a ∈ s := by
  constructor
  · intro hne
    -- without a member it would be the empty set, by extensionality
    refine Classical.byContradiction fun hnone => hne (ext fun a => ?_)
    exact ⟨fun ha => absurd ⟨a, ha⟩ hnone, fun ha => absurd ha not_mem_empty⟩
  · rintro ⟨a, ha⟩ rfl
    exact not_mem_empty ha

end SortedSet

end PatternAutomata
