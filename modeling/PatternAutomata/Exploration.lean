import PatternAutomata.SortedSet
import Std.Data.TreeSet

/-!
# Pattern automata — exploration

Every construction of this library discovers its states one by one: it starts
from some elements, asks each for its successors, and goes on until nothing new
turns up. `explore` is that search, breadth first, so the order of its answer is
the order in which states are numbered. `exploreSteps` also answers what was found
out at each visit, and `findReachable?` goes no further than the first element that
it was sent to look for.

What was met is recognized by its key, a list of numbers. The search ends because
successors come from a finite range (`FiniteRange`). The range is never computed:
it only bounds what is left to meet.

## Results

* `nodup_explore`        — no element is visited twice.
* `mem_explore_iff`      — what is visited is exactly what can be reached (`Reaches`).
* `start_prefix_explore` — the visits begin with `start`.
* `exploreSteps_eq`      — the steps are those of the elements that are visited.
* `findReachable?_eq`    — what is found is the first of all visits that is looked for.
-/

namespace PatternAutomata

variable {α β ρ : Type}

-- ---------------------------------------------------------------------------
-- Keys
-- ---------------------------------------------------------------------------

/-- Types whose elements are told apart by a list of numbers. -/
class Keyed (α : Type) where
  key : α → List Nat
  key_injective : ∀ a b, key a = key b → a = b

export Keyed (key)

/-- Keys are equal for equal elements only, so a search may go by the keys. -/
theorem key_inj [Keyed α] {a b : α} : key a = key b ↔ a = b :=
  ⟨Keyed.key_injective a b, congrArg key⟩

instance : Keyed Nat where
  key n := [n]
  key_injective _ _ h := (List.cons.inj h).1

instance : Keyed (SortedSet Nat) where
  key s := s.toList
  key_injective _ _ h := SortedSet.ext fun a => by
    rw [← SortedSet.mem_toList, h, SortedSet.mem_toList]

instance [Keyed α] : Keyed (Option α) where
  key a? := a?.elim [] fun a => 0 :: key a
  key_injective a? b? h := by
    cases a? <;> cases b?
    · rfl
    · exact nomatch h
    · exact nomatch h
    · exact congrArg some (key_inj.mp (List.cons.inj h).2)

/-- The key of a pair says where the key of its first member ends. -/
instance [Keyed α] [Keyed β] : Keyed (α × β) where
  key p := (key p.1).length :: (key p.1 ++ key p.2)
  key_injective p q h := by
    obtain ⟨hlength, hkeys⟩ := List.cons.inj h
    obtain ⟨h₁, h₂⟩ := List.append_inj hkeys hlength
    exact Prod.ext (key_inj.mp h₁) (key_inj.mp h₂)

-- ---------------------------------------------------------------------------
-- Searches
-- ---------------------------------------------------------------------------

/-- The successors of all elements lie in one finite list. Nothing is said about how long
the list is, and it is never looked at; it is there for the search to end. -/
def FiniteRange (next : α → List α) : Prop :=
  ∃ range : List α, ∀ x, ∀ y ∈ next x, y ∈ range

/-- `Reaches next x y`: some number of steps of `next` leads from `x` to `y`. -/
inductive Reaches (next : α → List α) (x : α) : α → Prop
  | refl : Reaches next x x
  | step {y z : α} : Reaches next x y → z ∈ next y → Reaches next x z

/-- A search on its way: what it has met, each element once, and what it found out at
those of them that it has visited. The elements visited are the first ones met, so what is
still to be visited needs no queue of its own: it starts after as many elements as there
are steps. -/
structure Frontier (α ρ : Type) [Keyed α] where
  found : Array α := #[]
  keys : Std.TreeSet (List Nat) := ∅
  steps : Array ρ := #[]
  mem_keys_iff : ∀ a, key a ∈ keys ↔ a ∈ found := by simp
  nodup : found.toList.Nodup := by simp

namespace Frontier

variable [Keyed α]

/-- Meets `y`: unless it was met before, it waits behind all others. -/
def push (f : Frontier α ρ) (y : α) : Frontier α ρ :=
  if h : f.keys.contains (key y) then f
  else {
    found := f.found.push y
    keys := f.keys.insert (key y)
    steps := f.steps
    mem_keys_iff := fun a => by
      rw [Std.TreeSet.mem_insert, f.mem_keys_iff, Array.mem_push, Std.LawfulEqCmp.compare_eq_iff_eq,
        key_inj, or_comm, eq_comm]
    nodup := by
      rw [Std.TreeSet.contains_iff_mem, f.mem_keys_iff] at h
      rw [Array.toList_push, List.nodup_append]
      refine ⟨f.nodup, by simp, fun a ha b hb hab => h ?_⟩
      rw [← List.mem_singleton.mp hb, ← hab]
      exact Array.mem_toList_iff.mp ha }

/-- Meets the elements of `ys` in turn. -/
def pushAll (f : Frontier α ρ) (ys : List α) : Frontier α ρ :=
  ys.foldl push f

/-- Visits the next element that waits: takes its step and meets the targets of that. -/
def visit (step : α → ρ) (targets : ρ → List α) (f : Frontier α ρ)
    (h : f.steps.size < f.found.size) : Frontier α ρ :=
  let r := step f.found[f.steps.size]
  pushAll { f with steps := f.steps.push r } (targets r)

/-- How many visits are left at most, for elements of `range`. -/
def weight (range : List α) (f : Frontier α ρ) : Nat :=
  (range.filter (key · ∉ f.keys)).length + (f.found.size - f.steps.size)

/-- After an element was met, it is among what was found, with all others. -/
@[simp] theorem mem_found_push {f : Frontier α ρ} {x y : α} :
    x ∈ (f.push y).found ↔ x ∈ f.found ∨ x = y := by
  unfold push
  split
  · rename_i h
    have hy : y ∈ f.found := (f.mem_keys_iff y).mp (Std.TreeSet.contains_iff_mem.mp h)
    exact ⟨.inl, fun hx => hx.elim id fun hxy => hxy ▸ hy⟩
  · exact Array.mem_push

@[simp] theorem mem_found_pushAll {f : Frontier α ρ} {x : α} {ys : List α} :
    x ∈ (f.pushAll ys).found ↔ x ∈ f.found ∨ x ∈ ys := by
  induction ys generalizing f with
  | nil => simp [pushAll]
  | cons y ys ih =>
    show x ∈ ((f.push y).pushAll ys).found ↔ _
    rw [ih, mem_found_push, List.mem_cons, or_assoc]

@[simp] theorem steps_push (f : Frontier α ρ) (y : α) : (f.push y).steps = f.steps := by
  unfold push
  split <;> rfl

@[simp] theorem steps_pushAll (f : Frontier α ρ) (ys : List α) :
    (f.pushAll ys).steps = f.steps := by
  induction ys generalizing f with
  | nil => rfl
  | cons y ys ih => exact (ih (f.push y)).trans (steps_push f y)

/-- A visit adds the step of the first element that waits, and no other. -/
theorem steps_visit (step : α → ρ) (targets : ρ → List α) (f : Frontier α ρ)
    (h : f.steps.size < f.found.size) :
    (f.visit step targets h).steps = f.steps.push (step f.found[f.steps.size]) :=
  steps_pushAll _ _

/-- What was met keeps its place. -/
theorem found_prefix_push (f : Frontier α ρ) (y : α) :
    f.found.toList <+: (f.push y).found.toList := by
  unfold push
  split
  · exact List.prefix_rfl
  · simp

theorem found_prefix_pushAll (f : Frontier α ρ) (ys : List α) :
    f.found.toList <+: (f.pushAll ys).found.toList := by
  induction ys generalizing f with
  | nil => exact List.prefix_rfl
  | cons y ys ih => exact (found_prefix_push f y).trans (ih (f.push y))

theorem found_prefix_visit (step : α → ρ) (targets : ρ → List α) (f : Frontier α ρ)
    (h : f.steps.size < f.found.size) :
    f.found.toList <+: (f.visit step targets h).found.toList :=
  found_prefix_pushAll { f with steps := f.steps.push _ } _

-- ---------------------------------------------------------------------------
-- The end of a search
-- ---------------------------------------------------------------------------

/-- Meeting an element of the range never raises the bound. -/
theorem weight_push_le {range : List α} {f : Frontier α ρ} {y : α} (hy : y ∈ range) :
    (f.push y).weight range ≤ f.weight range := by
  unfold push
  split
  · exact Nat.le_refl _
  · rename_i h
    have hsplit : range.filter (key · ∉ f.keys.insert (key y)) =
        (range.filter (key · ∉ f.keys)).filter (key · ≠ key y) := by
      rw [List.filter_filter]
      refine List.filter_congr fun x _ => ?_
      simp [Std.TreeSet.mem_insert, eq_comm (a := key x)]
    have hlt : (range.filter (key · ∉ f.keys.insert (key y))).length <
        (range.filter (key · ∉ f.keys)).length := by
      rw [hsplit]
      refine List.length_filter_lt_length_iff_exists.mpr ⟨y, ?_, by simp⟩
      exact List.mem_filter.mpr ⟨hy, by simpa using h⟩
    simp only [weight, Array.size_push]
    omega

theorem weight_pushAll_le {range : List α} {f : Frontier α ρ} {ys : List α}
    (h : ∀ y ∈ ys, y ∈ range) : (f.pushAll ys).weight range ≤ f.weight range := by
  induction ys generalizing f with
  | nil => exact Nat.le_refl _
  | cons y ys ih =>
    exact Nat.le_trans (ih fun z hz => h z (List.mem_cons_of_mem _ hz))
      (weight_push_le (h y List.mem_cons_self))

/-- A visit lowers the bound. -/
theorem weight_visit_lt {step : α → ρ} {targets : ρ → List α} {range : List α}
    {f : Frontier α ρ} (hrange : ∀ x, ∀ y ∈ targets (step x), y ∈ range)
    (h : f.steps.size < f.found.size) :
    (f.visit step targets h).weight range < f.weight range := by
  refine Nat.lt_of_le_of_lt (weight_pushAll_le (hrange _)) ?_
  simp only [weight, Array.size_push]
  omega

/-- Visits what waits, up to the first element to stop at. -/
def run (step : α → ρ) (targets : ρ → List α) (fin : FiniteRange fun x => targets (step x))
    (stop : α → Bool) (f : Frontier α ρ) : Frontier α ρ :=
  if h : f.steps.size < f.found.size then
    if stop f.found[f.steps.size] then f
    else run step targets fin stop (f.visit step targets h)
  else f
termination_by f.weight fin.choose
decreasing_by exact weight_visit_lt fin.choose_spec h

end Frontier

/-- All elements reachable from `start`, each once, in breadth-first order, and the step of
each; the targets of the steps are the successors. -/
def exploreSteps [Keyed α] (step : α → ρ) (targets : ρ → List α)
    (fin : FiniteRange fun x => targets (step x)) (start : List α) : List (α × ρ) :=
  let f := Frontier.run step targets fin (fun _ => false) (Frontier.pushAll {} start)
  f.found.toList.zip f.steps.toList

/-- All elements reachable from `start`, each once, in breadth-first order. -/
def explore [Keyed α] (next : α → List α) (fin : FiniteRange next) (start : List α) : List α :=
  (Frontier.run next id fin (fun _ => false) (Frontier.pushAll {} start)).found.toList

/-- The first element reachable from `start`, in breadth-first order, that is looked for.
Nothing behind it is visited. -/
def findReachable? [Keyed α] (next : α → List α) (fin : FiniteRange next) (start : List α)
    (wanted : α → Bool) : Option α :=
  let f := Frontier.run next id fin wanted (Frontier.pushAll {} start)
  f.found[f.steps.size]?

namespace Frontier

variable [Keyed α] {step : α → ρ} {targets : ρ → List α}
  {fin : FiniteRange fun x => targets (step x)} {stop : α → Bool}

-- ---------------------------------------------------------------------------
-- What a search finds
-- ---------------------------------------------------------------------------

/-- What was met stays at its place. -/
theorem found_prefix_run (f : Frontier α ρ) :
    f.found.toList <+: (f.run step targets fin stop).found.toList := by
  fun_induction run step targets fin stop f with
  | case1 f h hstop => exact List.prefix_rfl
  | case2 f h hstop ih => exact (found_prefix_visit step targets f h).trans ih
  | case3 f h => exact List.prefix_rfl

/-- What holds of the elements met, and passes on to successors, holds of all that is found. -/
theorem forall_mem_run {P : α → Prop} {f : Frontier α ρ} (hf : ∀ x ∈ f.found, P x)
    (hnext : ∀ x, P x → ∀ y ∈ targets (step x), P y) :
    ∀ x ∈ (f.run step targets fin stop).found, P x := by
  fun_induction run step targets fin stop f with
  | case1 f h hstop => exact hf
  | case2 f h hstop ih =>
    refine ih fun x hx => ?_
    rcases mem_found_pushAll.mp hx with hx | hx
    · exact hf x hx
    · exact hnext _ (hf _ (Array.getElem_mem h)) x hx
  | case3 f h => exact hf

/-- The steps are those of the elements visited, and the targets of these were met. -/
structure Sound (step : α → ρ) (targets : ρ → List α) (f : Frontier α ρ) : Prop where
  steps_eq : f.steps.toList = (f.found.toList.take f.steps.size).map step
  targets_mem : ∀ r ∈ f.steps, ∀ y ∈ targets r, y ∈ f.found

theorem sound_start (start : List α) : (pushAll {} start).Sound step targets where
  steps_eq := by simp
  targets_mem := by simp

/-- A visit keeps a search sound: the step that it adds is that of the element visited,
whose targets it has met. -/
theorem Sound.visit {f : Frontier α ρ} (hf : f.Sound step targets)
    (h : f.steps.size < f.found.size) : (f.visit step targets h).Sound step targets where
  steps_eq := by
    obtain ⟨new, hnew⟩ := found_prefix_visit step targets f h
    have hlength : f.steps.size < f.found.toList.length := by simpa using h
    rw [steps_visit, Array.toList_push, Array.size_push, ← hnew,
      List.take_append_of_le_length hlength, List.take_succ_eq_append_getElem hlength,
      List.map_append, ← hf.steps_eq]
    rfl
  targets_mem r hr y hy := by
    rw [steps_visit] at hr
    refine mem_found_pushAll.mpr ?_
    rcases Array.mem_push.mp hr with hr | rfl
    · exact .inl (hf.targets_mem r hr y hy)
    · exact .inr hy

/-- So a search that was sound when it started is sound when it ends. -/
theorem Sound.run {f : Frontier α ρ} (hf : f.Sound step targets) :
    (f.run step targets fin stop).Sound step targets := by
  fun_induction Frontier.run step targets fin stop f with
  | case1 f h hstop => exact hf
  | case2 f h hstop ih => exact ih (hf.visit h)
  | case3 f h => exact hf

/-- A search that never stops visits all that it finds. -/
theorem size_found_run_le (f : Frontier α ρ) :
    (f.run step targets fin fun _ => false).found.size ≤
      (f.run step targets fin fun _ => false).steps.size := by
  fun_induction run step targets fin (fun _ => false) f with
  | case1 f h hstop => exact nomatch hstop
  | case2 f h hstop ih => exact ih
  | case3 f h => exact Nat.le_of_not_lt h

/-- A search that never stops early has the step of everything that it has found, in
order. -/
theorem Sound.steps_run_eq {f : Frontier α ρ} (hf : f.Sound step targets) :
    (f.run step targets fin fun _ => false).steps.toList =
      (f.run step targets fin fun _ => false).found.toList.map step := by
  rw [hf.run.steps_eq, List.take_of_length_le (by simpa using size_found_run_le f)]

/-- A search that stops at the elements `stop` ends at the first of them that is met at all. -/
theorem getElem?_size_steps_run (f : Frontier α ρ) :
    (f.run step targets fin stop).found[(f.run step targets fin stop).steps.size]? =
      ((f.run step targets fin fun _ => false).found.toList.drop f.steps.size).find? stop := by
  -- what waits first is visited next, and stays at its place to the end
  have hdrop : ∀ f : Frontier α ρ, ∀ h : f.steps.size < f.found.size,
      (f.run step targets fin fun _ => false).found.toList.drop f.steps.size =
        f.found[f.steps.size] ::
          (f.run step targets fin fun _ => false).found.toList.drop (f.steps.size + 1) := by
    intro f h
    obtain ⟨new, hnew⟩ :
        f.found.toList <+: (f.run step targets fin fun _ => false).found.toList :=
      found_prefix_run f
    have hlength : f.steps.size < f.found.toList.length := by simpa using h
    rw [← hnew, List.drop_append_of_le_length (Nat.le_of_lt hlength),
      List.drop_append_of_le_length hlength, List.drop_eq_getElem_cons hlength]
    rfl
  fun_induction run step targets fin stop f with
  | case1 f h hstop => rw [hdrop f h, List.find?_cons_of_pos hstop, Array.getElem?_eq_getElem h]
  | case2 f h hstop ih =>
    rw [ih, hdrop f h, List.find?_cons_of_neg hstop, steps_visit, Array.size_push]
    -- the search that does not stop takes the same turn
    conv => rhs; rw [run]
    simp [h]
  | case3 f h =>
    rw [run, dif_neg h, List.drop_of_length_le (by simpa using Nat.le_of_not_lt h)]
    simpa using Nat.le_of_not_lt h

-- ---------------------------------------------------------------------------
-- Searches without steps
-- ---------------------------------------------------------------------------

/-- The same search, with the targets of each step in the place of the step. -/
def withTargets (targets : ρ → List α) (f : Frontier α ρ) : Frontier α (List α) :=
  { f with steps := f.steps.map targets }

theorem withTargets_pushAll (f : Frontier α ρ) (ys : List α) :
    (f.pushAll ys).withTargets targets = (f.withTargets targets).pushAll ys := by
  induction ys generalizing f with
  | nil => rfl
  | cons y ys ih =>
    refine (ih (f.push y)).trans (congrArg (pushAll · ys) ?_)
    have hkeys : (f.withTargets targets).keys = f.keys := rfl
    by_cases h : f.keys.contains (key y) = true
    · rw [push, dif_pos h, push, dif_pos (hkeys ▸ h)]
    · rw [push, dif_neg h, push, dif_neg (hkeys ▸ h)]
      rfl

theorem withTargets_visit (f : Frontier α ρ) (h : f.steps.size < f.found.size)
    (h' : (f.withTargets targets).steps.size < (f.withTargets targets).found.size) :
    (f.visit step targets h).withTargets targets =
      (f.withTargets targets).visit (fun x => targets (step x)) id h' := by
  refine (withTargets_pushAll _ _).trans ?_
  simp [visit, withTargets]

/-- A visit looks at the targets of its step only, so the whole search is the same with
the targets in the place of the steps. -/
theorem withTargets_run (f : Frontier α ρ) :
    (f.run step targets fin stop).withTargets targets =
      (f.withTargets targets).run (fun x => targets (step x)) id fin stop := by
  fun_induction run step targets fin stop f with
  | case1 f h hstop =>
    rw [run, dif_pos (by simpa [withTargets] using h), if_pos (by simpa [withTargets] using hstop)]
  | case2 f h hstop ih =>
    have h' : (f.withTargets targets).steps.size < (f.withTargets targets).found.size := by
      simpa [withTargets] using h
    rw [ih, withTargets_visit f h h']
    conv => rhs; rw [run, dif_pos h', if_neg (by simpa [withTargets] using hstop)]
  | case3 f h => rw [run, dif_neg (by simpa [withTargets] using h)]

end Frontier

section Explore

variable [Keyed α] {next : α → List α} {fin : FiniteRange next} {start : List α}

/-- No element is visited twice. -/
theorem nodup_explore : (explore next fin start).Nodup := Frontier.nodup _

/-- What is visited is exactly what can be reached. -/
theorem mem_explore_iff {y : α} :
    y ∈ explore next fin start ↔ ∃ x ∈ start, Reaches next x y := by
  have hsound : (Frontier.run next id fin (fun _ => false) (Frontier.pushAll {} start)).Sound
      next id := (Frontier.sound_start start).run
  rw [explore, Array.mem_toList_iff]
  constructor
  · -- every element that is found was reached, since its finder was
    refine Frontier.forall_mem_run (P := fun y => ∃ x ∈ start, Reaches next x y) ?_ ?_ y
    · exact fun x hx => ⟨x, by simpa using hx, .refl⟩
    · exact fun x ⟨w, hw, hwx⟩ y hy => ⟨w, hw, .step hwx hy⟩
  · rintro ⟨x, hx, hxy⟩
    -- along the way there: what is found is visited, and its successors are met
    induction hxy with
    | refl =>
      exact Array.mem_toList_iff.mp
        ((Frontier.found_prefix_run _).subset (by simpa using hx))
    | step _ hz ih =>
      refine hsound.targets_mem _ ?_ _ hz
      rw [← Array.mem_toList_iff, (Frontier.sound_start start).steps_run_eq]
      exact List.mem_map_of_mem (Array.mem_toList_iff.mpr ih)

/-- The visits begin with the start, if it holds nothing twice. -/
theorem start_prefix_explore (h : start.Nodup) : start <+: explore next fin start := by
  -- elements that are new and differ from each other are all put behind, in order
  have hfound : ∀ (f : Frontier α (List α)) (ys : List α), ys.Nodup → (∀ y ∈ ys, y ∉ f.found) →
      (f.pushAll ys).found.toList = f.found.toList ++ ys := by
    intro f ys
    induction ys generalizing f with
    | nil => simp [Frontier.pushAll]
    | cons y ys ih =>
      intro hnodup hnew
      obtain ⟨hy, hys⟩ := List.nodup_cons.mp hnodup
      have hkey : ¬ key y ∈ f.keys := fun hkey =>
        hnew y List.mem_cons_self ((f.mem_keys_iff y).mp hkey)
      have hpush : (f.push y).found = f.found.push y := by simp [Frontier.push, hkey]
      refine (ih (f.push y) hys fun z hz hz' => ?_).trans (by simp [hpush])
      rcases Frontier.mem_found_push.mp hz' with hz' | rfl
      · exact hnew z (List.mem_cons_of_mem _ hz) hz'
      · exact hy hz
  have hprefix : (Frontier.pushAll {} start).found.toList <+: explore next fin start :=
    Frontier.found_prefix_run _
  rwa [hfound {} start h (by simp)] at hprefix

/-- The steps are those of the elements that are visited. -/
theorem exploreSteps_eq {step : α → ρ} {targets : ρ → List α}
    {fin : FiniteRange fun x => targets (step x)} :
    exploreSteps step targets fin start =
      (explore (fun x => targets (step x)) fin start).map fun x => (x, step x) := by
  have hempty : (({} : Frontier α ρ).withTargets targets) = {} := by
    simp [Frontier.withTargets]
  have hrun : (Frontier.run step targets fin (fun _ => false)
      (Frontier.pushAll {} start)).withTargets targets = Frontier.run _ id fin (fun _ => false)
        (Frontier.pushAll {} start) := by
    rw [Frontier.withTargets_run, Frontier.withTargets_pushAll, hempty]
  have hfound : (Frontier.run step targets fin (fun _ => false)
      (Frontier.pushAll {} start)).found.toList =
        explore (fun x => targets (step x)) fin start :=
    congrArg (fun f => f.found.toList) hrun
  rw [exploreSteps, (Frontier.sound_start start).steps_run_eq, hfound]
  generalize explore (fun x => targets (step x)) fin start = l
  induction l with
  | nil => rfl
  | cons x l ih => simp only [List.map_cons, List.zip_cons_cons, ih]

/-- What is found is the first of all visits that is looked for. -/
theorem findReachable?_eq {wanted : α → Bool} :
    findReachable? next fin start wanted = (explore next fin start).find? wanted := by
  refine (Frontier.getElem?_size_steps_run _).trans ?_
  rw [Frontier.steps_pushAll]
  rfl

end Explore

end PatternAutomata
