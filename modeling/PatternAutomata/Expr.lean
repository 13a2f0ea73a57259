/-!
# Pattern automata — regular expressions

Expressions over any kind of leaf: a pattern is an expression over characters,
and its parse tree is the same expression over numbered leaves. `Expr.Matches`
says which words an expression stands for, whatever its leaves read, so the
language of a pattern and the language of the positions of its tree are two
readings of one definition.
-/

namespace PatternAutomata

/-- A regular expression with interleaving, over leaves of type `α`. -/
inductive Expr (α : Type) where
  | epsilon
  | leaf (a : α)
  | concat (left right : Expr α)
  | union (left right : Expr α)
  | shuffle (left right : Expr α)
  | star (body : Expr α)
  deriving DecidableEq, Repr

/-- `Interleaving u v w`: `w` is made of the letters of `u` and `v`, each in its order. -/
inductive Interleaving {σ : Type} : List σ → List σ → List σ → Prop
  | nil : Interleaving [] [] []
  | left {a : σ} {u v w : List σ} : Interleaving u v w → Interleaving (a :: u) v (a :: w)
  | right {a : σ} {u v w : List σ} : Interleaving u v w → Interleaving u (a :: v) (a :: w)

namespace Interleaving

variable {σ : Type} {u v w : List σ}

/-- A word put before the first of two comes before the interleaving, and the interleaving
goes on as it was. -/
theorem append_left (h : Interleaving u v w) (x : List σ) : Interleaving (x ++ u) v (x ++ w) := by
  induction x with
  | nil => exact h
  | cons a x ih => exact .left ih

theorem append_right (h : Interleaving u v w) (x : List σ) :
    Interleaving u (x ++ v) (x ++ w) := by
  induction x with
  | nil => exact h
  | cons a x ih => exact .right ih

end Interleaving

/-- `Repeated P w`: `w` is made of words of `P`, one after the other. -/
def Repeated {σ : Type} (P : List σ → Prop) (w : List σ) : Prop :=
  ∃ ws : List (List σ), (∀ u ∈ ws, P u) ∧ ws.flatten = w

theorem repeated_nil {σ : Type} {P : List σ → Prop} : Repeated P [] :=
  ⟨[], fun _ hu => absurd hu List.not_mem_nil, rfl⟩

/-- One word more, in front of the others. -/
theorem Repeated.cons {σ : Type} {P : List σ → Prop} {u v : List σ} (hu : P u)
    (hv : Repeated P v) : Repeated P (u ++ v) := by
  obtain ⟨ws, hws, rfl⟩ := hv
  exact ⟨u :: ws, List.forall_mem_cons.mpr ⟨hu, hws⟩, rfl⟩

namespace Expr

variable {α β σ : Type}

/-- `Matches read e w`: the word `w` is in the language of `e`, when a leaf `a` reads `read a`. -/
inductive Matches (read : α → List σ) : Expr α → List σ → Prop
  | epsilon : Matches read epsilon []
  | leaf (a : α) : Matches read (leaf a) (read a)
  | concat {l r : Expr α} {u v : List σ} :
      Matches read l u → Matches read r v → Matches read (concat l r) (u ++ v)
  | unionLeft {l r : Expr α} {u : List σ} : Matches read l u → Matches read (union l r) u
  | unionRight {l r : Expr α} {v : List σ} : Matches read r v → Matches read (union l r) v
  | shuffle {l r : Expr α} {u v w : List σ} :
      Matches read l u → Matches read r v → Interleaving u v w → Matches read (shuffle l r) w
  | starNil {e : Expr α} : Matches read (star e) []
  | starMore {e : Expr α} {u v : List σ} :
      Matches read e u → Matches read (star e) v → Matches read (star e) (u ++ v)

variable {read : α → List σ} {w : List σ}

theorem matches_epsilon_iff : Matches read epsilon w ↔ w = [] :=
  ⟨fun h => by cases h; rfl, fun h => h ▸ .epsilon⟩

theorem matches_leaf_iff {a : α} : Matches read (leaf a) w ↔ w = read a :=
  ⟨fun h => by cases h; rfl, fun h => h ▸ .leaf a⟩

/-- A word of a concatenation falls apart into a word of each operand. -/
theorem matches_concat_iff {l r : Expr α} :
    Matches read (concat l r) w ↔ ∃ u v, Matches read l u ∧ Matches read r v ∧ u ++ v = w :=
  ⟨fun | .concat hu hv => ⟨_, _, hu, hv, rfl⟩, fun ⟨_, _, hu, hv, h⟩ => h ▸ .concat hu hv⟩

/-- A word of an alternative is one of either operand. -/
theorem matches_union_iff {l r : Expr α} :
    Matches read (union l r) w ↔ Matches read l w ∨ Matches read r w :=
  ⟨fun | .unionLeft hu => .inl hu | .unionRight hv => .inr hv,
    fun h => h.elim .unionLeft .unionRight⟩

/-- A word of an interleaving is made of a word of each operand. -/
theorem matches_shuffle_iff {l r : Expr α} :
    Matches read (shuffle l r) w ↔
      ∃ u v, Matches read l u ∧ Matches read r v ∧ Interleaving u v w :=
  ⟨fun | .shuffle hu hv h => ⟨_, _, hu, hv, h⟩, fun ⟨_, _, hu, hv, h⟩ => .shuffle hu hv h⟩

/-- The words of a repetition are the words of its body, any number of them one after the
other. -/
theorem matches_star_iff {e : Expr α} :
    Matches read (star e) w ↔ Repeated (Matches read e) w := by
  constructor
  · intro h
    -- the body has to stay what it is while the words are read off
    generalize hstar : star e = s at h
    induction h with
    | starNil => exact repeated_nil
    | starMore hu _ _ ihv =>
      cases hstar
      exact (ihv rfl).cons hu
    | _ => cases hstar
  · rintro ⟨ws, hws, rfl⟩
    induction ws with
    | nil => exact .starNil
    | cons u ws ih =>
      exact .starMore (hws u List.mem_cons_self) (ih fun v hv => hws v (List.mem_cons_of_mem _ hv))

def map (f : α → β) : Expr α → Expr β
  | epsilon => epsilon
  | leaf a => leaf (f a)
  | concat l r => concat (l.map f) (r.map f)
  | union l r => union (l.map f) (r.map f)
  | shuffle l r => shuffle (l.map f) (r.map f)
  | star e => star (e.map f)

/-- A leaf that was replaced reads what its replacement reads. -/
theorem matches_map_iff {f : α → β} {read : β → List σ} {e : Expr α} {w : List σ} :
    Matches read (e.map f) w ↔ Matches (fun a => read (f a)) e w := by
  induction e generalizing w with
  | epsilon => rw [map, matches_epsilon_iff, matches_epsilon_iff]
  | leaf a => rw [map, matches_leaf_iff, matches_leaf_iff]
  | concat l r ihl ihr => simp only [map, matches_concat_iff, ihl, ihr]
  | union l r ihl ihr => simp only [map, matches_union_iff, ihl, ihr]
  | shuffle l r ihl ihr => simp only [map, matches_shuffle_iff, ihl, ihr]
  | star e ih => simp only [map, matches_star_iff, Repeated, ih]

/-- The leaves from left to right. -/
def leaves : Expr α → List α
  | epsilon => []
  | leaf a => [a]
  | concat l r | union l r | shuffle l r => l.leaves ++ r.leaves
  | star e => e.leaves

/-- Other leaves stand in the order of those that they replace. -/
theorem leaves_map (f : α → β) (e : Expr α) : (e.map f).leaves = e.leaves.map f := by
  induction e with
  | epsilon => rfl
  | leaf => rfl
  | concat l r ihl ihr | union l r ihl ihr | shuffle l r ihl ihr =>
    simp only [map, leaves, ihl, ihr, List.map_append]
  | star e ih => exact ih

/-- The leaves from left to right, with `rest` behind them. -/
def leavesOnto (rest : List α) : Expr α → List α
  | epsilon => rest
  | leaf a => a :: rest
  | concat l r | union l r | shuffle l r => l.leavesOnto (r.leavesOnto rest)
  | star e => e.leavesOnto rest

/-- The number of nodes. -/
def size : Expr α → Nat
  | epsilon | leaf _ => 1
  | concat l r | union l r | shuffle l r => l.size + r.size + 1
  | star e => e.size + 1

/-- The number of leaves. -/
def width : Expr α → Nat
  | epsilon => 0
  | leaf _ => 1
  | concat l r | union l r | shuffle l r => l.width + r.width
  | star e => e.width

/-- The same expression with its leaves numbered from `first` on, left to right. -/
def number (first : Nat) : Expr α → Expr (α × Nat)
  | epsilon => epsilon
  | leaf a => leaf (a, first)
  | concat l r => concat (l.number first) (r.number (first + l.width))
  | union l r => union (l.number first) (r.number (first + l.width))
  | shuffle l r => shuffle (l.number first) (r.number (first + l.width))
  | star e => star (e.number first)

/-- Numbers the leaves from `first` on and answers the number that comes next. -/
def numberFrom (first : Nat) : Expr α → Expr (α × Nat) × Nat
  | epsilon => (epsilon, first)
  | leaf a => (leaf (a, first), first + 1)
  | concat l r =>
    let (l, next) := l.numberFrom first
    let (r, next) := r.numberFrom next
    (concat l r, next)
  | union l r =>
    let (l, next) := l.numberFrom first
    let (r, next) := r.numberFrom next
    (union l r, next)
  | shuffle l r =>
    let (l, next) := l.numberFrom first
    let (r, next) := r.numberFrom next
    (shuffle l r, next)
  | star e =>
    let (e, next) := e.numberFrom first
    (star e, next)

/-- Collecting the leaves from right to left makes the same list. -/
theorem leavesOnto_eq (e : Expr α) (rest : List α) : e.leavesOnto rest = e.leaves ++ rest := by
  induction e generalizing rest with
  | epsilon => rfl
  | leaf => rfl
  | concat l r ihl ihr | union l r ihl ihr | shuffle l r ihl ihr =>
    simp only [leavesOnto, leaves, ihl, ihr, List.append_assoc]
  | star e ih => exact ih rest

/-- Numbering in one walk is numbering by widths: an operand's numbers start after as many
leaves as stand before it. -/
theorem numberFrom_eq (e : Expr α) (first : Nat) :
    e.numberFrom first = (e.number first, first + e.width) := by
  induction e generalizing first with
  | epsilon => rfl
  | leaf => rfl
  | concat l r ihl ihr | union l r ihl ihr | shuffle l r ihl ihr =>
    simp only [numberFrom, number, width, ihl, ihr, Nat.add_assoc]
  | star e ih => simp only [numberFrom, number, width, ih]

/-- The width counts the leaves. -/
theorem length_leaves (e : Expr α) : e.leaves.length = e.width := by
  induction e with
  | epsilon => rfl
  | leaf => rfl
  | concat l r ihl ihr | union l r ihl ihr | shuffle l r ihl ihr =>
    simp only [leaves, width, List.length_append, ihl, ihr]
  | star e ih => exact ih

theorem size_pos (e : Expr α) : 0 < e.size := by
  cases e <;> simp [size]

/-- Numbering changes neither the shape nor the leaves. -/
theorem map_fst_number (e : Expr α) (first : Nat) : (e.number first).map (·.1) = e := by
  induction e generalizing first with
  | epsilon => rfl
  | leaf => rfl
  | concat l r ihl ihr | union l r ihl ihr | shuffle l r ihl ihr =>
    simp only [number, map, ihl, ihr]
  | star e ih => simp only [number, map, ih]

/-- The leaves are numbered from left to right. -/
theorem leaves_number (e : Expr α) (first : Nat) :
    (e.number first).leaves = e.leaves.zipIdx first := by
  induction e generalizing first with
  | epsilon => rfl
  | leaf => rfl
  | concat l r ihl ihr | union l r ihl ihr | shuffle l r ihl ihr =>
    simp only [number, leaves, ihl, ihr, List.zipIdx_append, length_leaves]
  | star e ih => exact ih first

/-- The numbers are consecutive. -/
theorem map_snd_leaves_number (e : Expr α) (first : Nat) :
    (e.number first).leaves.map (·.2) = List.range' first e.width := by
  rw [leaves_number, List.zipIdx_map_snd, length_leaves]

end Expr

end PatternAutomata
