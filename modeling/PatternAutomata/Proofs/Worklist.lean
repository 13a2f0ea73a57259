import PatternAutomata.Proofs.BreadthFirst
import PatternAutomata.Worklist

/-!
# Pattern automata — what a loop over a queue makes

A construction that explores first and makes the states and the transitions of what
it has found afterwards makes what a loop over a queue makes, which does all of this
in turn. Two arguments show it.

* **The queue is a search.** What a loop has queued is what a search has found, and
  what it has taken out is what the search has visited (`Worklist.Follows`), so the
  search tells what the loop meets, in which order, and where it leaves.
* **A state may be made earlier.** Adding a state before the start was set, or before
  a transition was added, makes no difference (`Stages.start_add`, `Stages.link_add`).
  So each state can be moved in front of all transitions.

Neither needs labels that tell states apart: what one element's state is called does
not decide whether another element is met.

## Results

* `Stages.exists_second`, `Stages.second_add` — the second stage succeeds, and a state that is added
  behind it may be added before it.
* `Stages.exists_run`       — one step after the other, a loop ends, and has made what the stages
  make.
* `Stages.exists_endsWithin` — nothing is queued twice, and the elements that there can be bound how
  many are taken.
-/

namespace PatternAutomata

variable {α β μ ρ : Type}

-- ---------------------------------------------------------------------------
-- Loops beside searches
-- ---------------------------------------------------------------------------

namespace Frontier

variable [Keyed α] {f : Frontier α ρ} {y : α}

theorem push_of_mem (h : y ∈ f.found) : f.push y = f := by
  have hkey : f.keys.contains (key y) = true :=
    Std.TreeSet.contains_iff_mem.mpr ((f.mem_keys_iff y).mpr h)
  rw [push, dif_pos hkey]

theorem toList_found_push_of_not_mem (h : y ∉ f.found) :
    (f.push y).found.toList = f.found.toList ++ [y] :=
  (toList_found_push f y).resolve_left fun hmem => h hmem.1

end Frontier

namespace Loop

variable (k : Loop α μ β)

/-- The targets of the moves. -/
def next (x : α) : List α := (k.moves x).map (k.target x)

/-- The moves of the elements, each with its element. -/
def movesFrom (xs : List α) : List (α × μ) := xs.flatMap fun x => (k.moves x).map (x, ·)

theorem movesFrom_concat (xs : List α) (x : α) :
    k.movesFrom (xs ++ [x]) = k.movesFrom xs ++ (k.moves x).map (x, ·) := by
  simp [movesFrom]

/-- The search for the elements that the loop meets, up to one at which it leaves. -/
def search [Keyed α] (f : Frontier α (List α)) : Frontier α (List α) :=
  f.run k.next id k.finite k.leaves

variable {k} [DecidableEq α] {w w' : Worklist α β} {x : α} {queue : List α}

/-- An empty queue ends the loop. -/
theorem run_of_nil (h : w.queue = []) : k.run w = .ok (none, w) := by
  unfold run
  split
  · rfl
  · rename_i hqueue
    exact absurd (hqueue.symm.trans h) (List.cons_ne_nil _ _)

/-- So does an element at which the loop leaves, which is taken out all the same. Nothing
is made of it. -/
theorem run_of_leaves (h : w.queue = x :: queue) (hleaves : k.leaves x = true) :
    k.run w = .ok (some x, { w with queue := queue, taken := w.taken ++ [x] }) := by
  unfold run
  split
  · rename_i hqueue
    exact absurd (h.symm.trans hqueue) (List.cons_ne_nil _ _)
  · rename_i hqueue
    obtain ⟨rfl, rfl⟩ := List.cons.inj (hqueue.symm.trans h)
    rw [if_pos hleaves]

/-- Any other element is visited, and the loop goes on with what is queued then. -/
theorem run_of_visit (h : w.queue = x :: queue) (hleaves : ¬k.leaves x = true)
    (hvisit : k.visit { w with queue := queue, taken := w.taken ++ [x] } x = .ok w') :
    k.run w = k.run w' := by
  conv => lhs; unfold run
  split
  · rename_i hqueue
    exact absurd (h.symm.trans hqueue) (List.cons_ne_nil _ _)
  · rename_i hqueue
    obtain ⟨rfl, rfl⟩ := List.cons.inj (hqueue.symm.trans h)
    rw [if_neg hleaves]
    split
    · rename_i hfault
      cases hvisit.symm.trans hfault
    · rename_i hok
      rw [Except.ok.inj (hok.symm.trans hvisit)]

/-- The loop from `x` ends, and nothing is queued twice: what was taken out and what still
waits is all that was ever queued. At most `bound` elements are taken out. -/
structure EndsWithin (k : Loop α μ β) (x : α) (bound : Nat)
    (left? : Option α) (last : Worklist α β) : Prop where
  run_eq : k.runFrom x = .ok (left?, last)
  nodup_elements : last.elements.Nodup
  taken_append : last.taken ++ last.queue = last.elements
  queue_eq : left? = none → last.queue = []
  length_taken_le : last.taken.length ≤ bound

end Loop

/-- The loop has queued what the search has found, and has taken what the search has
visited. So the two stand at the same element, though the search keeps no queue. -/
structure Worklist.Follows [Keyed α] (w : Worklist α β) (f : Frontier α ρ) : Prop where
  elements_eq : w.elements = f.found.toList
  taken_append : w.taken ++ w.queue = f.found.toList
  length_taken : w.taken.length = f.steps.size

namespace Worklist.Follows

variable [Keyed α] {w : Worklist α β} {f : Frontier α ρ}

theorem queue_eq (h : w.Follows f) : w.queue = f.found.toList.drop f.steps.size := by
  rw [← h.taken_append, ← h.length_taken, List.drop_left]

/-- The element that is visited next is at the front of the queue. -/
theorem exists_queue (h : w.Follows f) (hlt : f.steps.size < f.found.size) :
    ∃ queue, w.queue = f.found[f.steps.size] :: queue :=
  ⟨_, h.queue_eq.trans (List.drop_eq_getElem_cons (by simpa using hlt))⟩

end Worklist.Follows

-- ---------------------------------------------------------------------------
-- Two stages
-- ---------------------------------------------------------------------------

/-- The same work in two stages: first the states of all elements, then the start and all
moves. An element that is proper can be added, and a state may be added before the start
is set and before a move is added. The last two fields are the only ones that compare two
orders of work; a construction has to show them for one state and one step. -/
structure Stages (k : Loop α μ β) where
  add : β → α → Except Fault β
  link : β → α × μ → Except Fault β
  state? : β → α → Option Nat
  size : β → Nat
  Proper : α → Prop
  Valid : β → Prop
  valid_empty : Valid k.empty
  size_empty : size k.empty = 0
  proper_target : ∀ x, Proper x → ∀ m ∈ k.moves x, Proper (k.target x m)
  exists_add : ∀ b x, Valid b → Proper x → ∃ b' s, k.addState b x = .ok (b', s) ∧
    add b x = .ok b' ∧ Valid b' ∧ size b' ≤ size b + 1 ∧ state? b' x = some s ∧
    ∀ y t, state? b y = some t → state? b' y = some t
  exists_start : ∀ b x s, Valid b → state? b x = some s →
    ∃ b', k.setStart b s = .ok b' ∧ Valid b' ∧ size b' = size b ∧ state? b' = state? b
  exists_link : ∀ b x m s t, Valid b → Proper x → m ∈ k.moves x → state? b x = some s →
    state? b (k.target x m) = some t →
    ∃ b', k.addMove b s m t = .ok b' ∧ link b (x, m) = .ok b' ∧ Valid b' ∧ size b' = size b ∧
      state? b' = state? b
  start_add : ∀ b x s y, Valid b → Proper y → state? b x = some s →
    (k.setStart b s >>= (add · y)) = (add b y >>= (k.setStart · s))
  link_add : ∀ b x m s t y, Valid b → Proper x → m ∈ k.moves x → Proper y →
    state? b x = some s → state? b (k.target x m) = some t →
    (link b (x, m) >>= (add · y)) = (add b y >>= (link · (x, m)))

namespace Stages

variable {k : Loop α μ β} (st : Stages k) {b base made : β} {x x₀ y : α} {m : μ} {s s₀ t : Nat}
  {states : List (α × Nat)} {followed : List (α × μ)}

/-- The second stage: the start is set, and the moves are added. -/
def second (s₀ : Nat) (followed : List (α × μ)) (base : β) : Except Fault β := do
  followed.foldlM st.link (← k.setStart base s₀)

/-- The moves can be added: they are moves of proper elements, and both ends have a
state. -/
def Linkable (b : β) (followed : List (α × μ)) : Prop :=
  ∀ p ∈ followed, st.Proper p.1 ∧ p.2 ∈ k.moves p.1 ∧ (∃ s, st.state? b p.1 = some s) ∧
    ∃ t, st.state? b (k.target p.1 p.2) = some t

variable {st}

/-- Moves that can be added are added, and no state is lost by it. The induction is on the
moves; that they can be added is kept, as it depends on states only. -/
theorem exists_foldlM_link (hb : st.Valid b) (hlinkable : st.Linkable b followed) :
    ∃ b', followed.foldlM st.link b = .ok b' ∧ st.Valid b' ∧ st.size b' = st.size b ∧
      st.state? b' = st.state? b := by
  induction followed generalizing b with
  | nil => exact ⟨b, rfl, hb, rfl, rfl⟩
  | cons p followed ih =>
    obtain ⟨⟨hproper, hmove, ⟨s, hs⟩, t, ht⟩, hrest⟩ := List.forall_mem_cons.mp hlinkable
    obtain ⟨c, -, hlink, hc, hsize, hstate⟩ :=
      st.exists_link b p.1 p.2 s t hb hproper hmove hs ht
    obtain ⟨b', hrun, hb', hsize', hstate'⟩ := ih hc (by rwa [Linkable, hstate])
    refine ⟨b', ?_, hb', hsize'.trans hsize, hstate'.trans hstate⟩
    rw [List.foldlM_cons, hlink, ok_bind, hrun]

/-- A state that is added behind some moves may be added before them. The induction is on
the moves: the state is moved in front of one after the other. -/
theorem foldlM_link_add (hb : st.Valid b) (hlinkable : st.Linkable b followed)
    (hy : st.Proper y) :
    (followed.foldlM st.link b >>= (st.add · y)) =
      (st.add b y >>= fun b => followed.foldlM st.link b) := by
  induction followed generalizing b with
  | nil => exact (bind_pure (st.add b y)).symm
  | cons p followed ih =>
    obtain ⟨⟨hproper, hmove, ⟨s, hs⟩, t, ht⟩, hrest⟩ := List.forall_mem_cons.mp hlinkable
    obtain ⟨c, -, hlink, hc, -, hstate⟩ := st.exists_link b p.1 p.2 s t hb hproper hmove hs ht
    have hswap := st.link_add b p.1 p.2 s t y hb hproper hmove hy hs ht
    rw [hlink, ok_bind] at hswap
    -- in front of the other moves by induction, and then in front of this one
    calc ((p :: followed).foldlM st.link b >>= (st.add · y))
        = (followed.foldlM st.link c >>= (st.add · y)) := by
          rw [List.foldlM_cons, hlink, ok_bind]
      _ = (st.add c y >>= fun b => followed.foldlM st.link b) :=
          ih hc (by rwa [Linkable, hstate])
      _ = (st.add b y >>= fun b => (p :: followed).foldlM st.link b) := by
          rw [hswap, bind_assoc]
          simp only [List.foldlM_cons]

/-- The second stage succeeds, and keeps all states: the start is set, and then moves are
added. -/
theorem exists_second (hbase : st.Valid base) (hs₀ : st.state? base x₀ = some s₀)
    (hlinkable : st.Linkable base followed) :
    ∃ made, st.second s₀ followed base = .ok made ∧ st.Valid made ∧
      st.size made = st.size base ∧ st.state? made = st.state? base := by
  obtain ⟨b, hstart, hb, hsize, hstate⟩ := st.exists_start base x₀ s₀ hbase hs₀
  have hlinkable' : st.Linkable b followed := by rwa [Linkable, hstate]
  obtain ⟨made, hrun, hmade, hsize', hstate'⟩ := exists_foldlM_link hb hlinkable'
  refine ⟨made, ?_, hmade, hsize'.trans hsize, hstate'.trans hstate⟩
  rw [second, hstart, ok_bind, hrun]

/-- A state that is added behind the second stage may be added before it. This is what
lets a loop be taken apart: each state that it adds in a later round is moved to the first
stage. -/
theorem second_add (hbase : st.Valid base) (hs₀ : st.state? base x₀ = some s₀)
    (hlinkable : st.Linkable base followed) (hy : st.Proper y) :
    (st.second s₀ followed base >>= (st.add · y)) =
      (st.add base y >>= st.second s₀ followed) := by
  obtain ⟨b, hstart, hb, -, hstate⟩ := st.exists_start base x₀ s₀ hbase hs₀
  have hswap := st.start_add base x₀ s₀ y hbase hy hs₀
  rw [hstart, ok_bind] at hswap
  calc (st.second s₀ followed base >>= (st.add · y))
      = (followed.foldlM st.link b >>= (st.add · y)) := by rw [second, hstart, ok_bind]
    _ = (st.add b y >>= fun b => followed.foldlM st.link b) :=
        foldlM_link_add hb (by rwa [Linkable, hstate]) hy
    _ = (st.add base y >>= st.second s₀ followed) := by
        rw [hswap, bind_assoc]
        rfl

/-- A loop over elements that adds the moves of each adds all moves, in the order of the
elements and then in the order of the moves of each. -/
theorem foldlM_movesFrom {link : β → α × μ → Except Fault β} {visit : β → α → Except Fault β}
    {xs : List α} (h : ∀ x ∈ xs, ∀ b, visit b x = (k.moves x).foldlM (fun b m => link b (x, m)) b)
    (b : β) : xs.foldlM visit b = (k.movesFrom xs).foldlM link b := by
  induction xs generalizing b with
  | nil => rfl
  | cons x xs ih =>
    obtain ⟨hx, hxs⟩ := List.forall_mem_cons.mp h
    show _ = ((k.moves x).map (x, ·) ++ k.movesFrom xs).foldlM link b
    rw [List.foldlM_append, List.foldlM_map, List.foldlM_cons, hx]
    exact bind_congr (ih hxs)

-- ---------------------------------------------------------------------------
-- What a loop has made so far
-- ---------------------------------------------------------------------------

/-- What was made so far is what the two stages make of the elements that were met and the moves
that were followed. -/
structure Makes (st : Stages k) (x₀ : α) (s₀ : Nat) (states : List (α × Nat))
    (followed : List (α × μ)) (base made : β) : Prop where
  base_eq : (states.map (·.1)).foldlM st.add k.empty = .ok base
  made_eq : st.second s₀ followed base = .ok made
  valid : st.Valid base
  size_le : st.size base ≤ states.length
  start_mem : (x₀, s₀) ∈ states
  proper : ∀ p ∈ states, st.Proper p.1
  state?_eq : ∀ p ∈ states, st.state? base p.1 = some p.2
  moves : ∀ p ∈ followed, p.2 ∈ k.moves p.1
  ends_mem : ∀ p ∈ followed, p.1 ∈ states.map (·.1) ∧ k.target p.1 p.2 ∈ states.map (·.1)

namespace Makes

theorem exists_state (h : st.Makes x₀ s₀ states followed base made) (hx : x ∈ states.map (·.1)) :
    st.Proper x ∧ ∃ s, st.state? base x = some s := by
  obtain ⟨p, hp, rfl⟩ := List.mem_map.mp hx
  exact ⟨h.proper p hp, p.2, h.state?_eq p hp⟩

/-- The moves that were followed can be added, as both ends were met. -/
theorem linkable (h : st.Makes x₀ s₀ states followed base made) :
    st.Linkable base followed := by
  intro p hp
  obtain ⟨hsource, htarget⟩ := h.ends_mem p hp
  obtain ⟨hproper, hs⟩ := h.exists_state hsource
  exact ⟨hproper, h.moves p hp, hs, (h.exists_state htarget).2⟩

/-- The second stage leaves the states of the first one as they were. -/
theorem kept (h : st.Makes x₀ s₀ states followed base made) :
    st.Valid made ∧ st.size made = st.size base ∧ st.state? made = st.state? base := by
  obtain ⟨made', hsecond, hkept⟩ := exists_second h.valid (h.state?_eq _ h.start_mem) h.linkable
  rw [h.made_eq] at hsecond
  exact Except.ok.inj hsecond ▸ hkept

/-- The first element is the start. A loop begins with the state for it, which is the
first stage of one element, and sets it as the start, which is the second stage of no
moves. -/
theorem exists_first (hx : st.Proper x) :
    ∃ base s made, k.addState k.empty x = .ok (base, s) ∧ k.setStart base s = .ok made ∧
      st.Makes x s [(x, s)] [] base made := by
  obtain ⟨base, s, hadd, hadd', hbase, hsize, hs, -⟩ :=
    st.exists_add k.empty x st.valid_empty hx
  obtain ⟨made, hstart, -⟩ := st.exists_start base x s hbase hs
  refine ⟨base, s, made, hadd, hstart, {
    base_eq := ?_
    made_eq := ?_
    valid := hbase
    size_le := by simpa [st.size_empty] using hsize
    start_mem := List.mem_singleton.mpr rfl
    proper := by simpa using hx
    state?_eq := by simpa using hs
    moves := by simp
    ends_mem := by simp }⟩
  · -- the first stage has one state to add, and the second one no moves
    rw [List.map_singleton, List.foldlM_cons, hadd', ok_bind]
    rfl
  · rw [second, hstart]
    rfl

/-- One more state. What is made is what the loop has, with the state moved in front of
the start and of all moves that were followed before. -/
theorem exists_addState (h : st.Makes x₀ s₀ states followed base made) (hy : st.Proper y) :
    ∃ made' s base', k.addState made y = .ok (made', s) ∧
      st.Makes x₀ s₀ (states ++ [(y, s)]) followed base' made' := by
  have hs₀ := h.state?_eq _ h.start_mem
  obtain ⟨hmade, -, -⟩ := h.kept
  obtain ⟨made', s, hadd, hadd', hmade', -, hs, -⟩ := st.exists_add made y hmade hy
  obtain ⟨base', s', -, hbase_add, hbase', hsize, -, hgrows⟩ := st.exists_add base y h.valid hy
  -- the state that the loop adds last is added in the first stage instead
  have hsecond : st.second s₀ followed base' = .ok made' := by
    have hswap := second_add h.valid hs₀ h.linkable hy
    rw [h.made_eq, ok_bind, hadd', hbase_add, ok_bind] at hswap
    exact hswap.symm
  have hlinkable : st.Linkable base' followed := by
    intro p hp
    obtain ⟨hproper, hmove, ⟨s, hs⟩, t, ht⟩ := h.linkable p hp
    exact ⟨hproper, hmove, ⟨s, hgrows _ s hs⟩, t, hgrows _ t ht⟩
  obtain ⟨made'', hsecond', -, -, hstate⟩ := exists_second hbase' (hgrows _ _ hs₀) hlinkable
  obtain rfl := Except.ok.inj (hsecond.symm.trans hsecond')
  refine ⟨made', s, base', hadd, {
    base_eq := ?_
    made_eq := hsecond
    valid := hbase'
    size_le := ?_
    start_mem := List.mem_append_left _ h.start_mem
    proper := List.forall_mem_append.mpr ⟨h.proper, by simpa using hy⟩
    state?_eq := List.forall_mem_append.mpr
      ⟨fun p hp => hgrows _ _ (h.state?_eq p hp), by simpa [← hstate] using hs⟩
    moves := h.moves
    ends_mem := fun p hp => ?_ }⟩
  · rw [List.map_append, List.foldlM_append, h.base_eq, ok_bind, List.map_singleton,
      List.foldlM_cons, hbase_add, ok_bind]
    rfl
  · have hle := h.size_le
    rw [List.length_append, List.length_singleton]
    omega
  · obtain ⟨hsource, htarget⟩ := h.ends_mem p hp
    rw [List.map_append]
    exact ⟨List.mem_append_left _ hsource, List.mem_append_left _ htarget⟩

/-- One more move. It is the last of the second stage, as it is for the loop, so nothing
has to be moved in front of anything. -/
theorem exists_addMove (h : st.Makes x₀ s₀ states followed base made) (hm : m ∈ k.moves x)
    (hs : (x, s) ∈ states) (ht : (k.target x m, t) ∈ states) :
    ∃ made', k.addMove made s m t = .ok made' ∧
      st.Makes x₀ s₀ states (followed ++ [(x, m)]) base made' := by
  obtain ⟨hmade, -, hstate⟩ := h.kept
  have hsource : st.state? made x = some s := by rw [hstate, h.state?_eq _ hs]
  have htarget : st.state? made (k.target x m) = some t := by rw [hstate, h.state?_eq _ ht]
  obtain ⟨made', hadd, hlink, -⟩ :=
    st.exists_link made x m s t hmade (h.proper _ hs) hm hsource htarget
  refine ⟨made', hadd, {
    h with
    made_eq := ?_
    moves := List.forall_mem_append.mpr ⟨h.moves, by simpa using hm⟩
    ends_mem := List.forall_mem_append.mpr ⟨h.ends_mem, ?_⟩ }⟩
  · -- behind the moves that were followed, in the second stage
    have hmade_eq := h.made_eq
    obtain ⟨started, hstart, hrun⟩ := bind_eq_ok.mp hmade_eq
    rw [second, hstart, ok_bind, List.foldlM_append, hrun, ok_bind, List.foldlM_cons, hlink,
      ok_bind]
    rfl
  · intro p hp
    rw [List.mem_singleton.mp hp]
    exact ⟨List.mem_map_of_mem hs, List.mem_map_of_mem ht⟩

end Makes

-- ---------------------------------------------------------------------------
-- Rounds
-- ---------------------------------------------------------------------------

section Rounds

variable [DecidableEq α]

theorem mem_of_lookup_eq_some (h : states.lookup x = some s) : (x, s) ∈ states := by
  obtain ⟨before, after, rfl, -⟩ := List.lookup_eq_some_iff.mp h
  exact List.mem_append_right _ List.mem_cons_self

variable [Keyed α] {w : Worklist α β} {f : Frontier α (List α)}

/-- Meeting an element leaves it with a state, whether it was met before or not. The
search finds it again in the first case, and for the first time in the other. -/
theorem exists_meet (hw : w.Follows f) (h : st.Makes x₀ s₀ w.states followed base w.made)
    (hy : st.Proper y) :
    ∃ w' s base', k.meet w y = .ok (w', s) ∧ w'.Follows (f.push y) ∧ w'.taken = w.taken ∧
      st.Makes x₀ s₀ w'.states followed base' w'.made ∧ (y, s) ∈ w'.states ∧
      ∀ p ∈ w.states, p ∈ w'.states := by
  cases hlookup : w.states.lookup y with
  | some s =>
    have hmem : (y, s) ∈ w.states := mem_of_lookup_eq_some hlookup
    -- what has a state was found by the search
    have hfound : y ∈ f.found := by
      rw [← Array.mem_toList_iff, ← hw.elements_eq]
      exact List.mem_map_of_mem hmem
    rw [Frontier.push_of_mem hfound]
    refine ⟨w, s, base, ?_, hw, rfl, h, hmem, fun p hp => hp⟩
    rw [Loop.meet, hlookup]
  | none =>
    have hnew : y ∉ f.found := by
      rw [← Array.mem_toList_iff, ← hw.elements_eq]
      exact Loop.lookup_eq_none_iff.mp hlookup
    have hpush := Frontier.toList_found_push_of_not_mem hnew
    obtain ⟨made, s, base', hadd, hmakes⟩ := h.exists_addState hy
    refine ⟨{ w with made := made, states := w.states ++ [(y, s)], queue := w.queue ++ [y] }, s,
      base', ?_, ?_, rfl, hmakes, by simp, fun p hp => List.mem_append_left _ hp⟩
    · rw [Loop.meet, hlookup]
      show (k.addState w.made y >>= _) = _
      rw [hadd]
      rfl
    · exact {
        elements_eq := by
          rw [hpush, ← hw.elements_eq]
          exact List.map_append
        taken_append := by rw [hpush, ← hw.taken_append, List.append_assoc]
        length_taken := by rw [Frontier.steps_push, hw.length_taken] }

/-- Following moves of an element meets their targets and adds all of them. The induction
is on the moves that are left. -/
theorem exists_follow {ms : List μ} (hw : w.Follows f)
    (h : st.Makes x₀ s₀ w.states followed base w.made) (hs : (x, s) ∈ w.states)
    (hms : ∀ m ∈ ms, m ∈ k.moves x) :
    ∃ w' base', ms.foldlM (k.follow x s) w = .ok w' ∧
      w'.Follows (f.pushAll (ms.map (k.target x))) ∧ w'.taken = w.taken ∧
      st.Makes x₀ s₀ w'.states (followed ++ ms.map (x, ·)) base' w'.made := by
  induction ms generalizing w f followed base with
  | nil => exact ⟨w, base, rfl, hw, rfl, by simpa using h⟩
  | cons m ms ih =>
    obtain ⟨hm, hrest⟩ := List.forall_mem_cons.mp hms
    have hproper := st.proper_target x (h.proper _ hs) m hm
    obtain ⟨met, t, base₁, hmeet, hmet, htaken, hmakes, ht, hstates⟩ := exists_meet hw h hproper
    obtain ⟨made, hadd, hmakes⟩ := hmakes.exists_addMove hm (hstates _ hs) ht
    -- adding a transition changes neither the queue nor what was found
    have hnext : ({ met with made := made } : Worklist α β).Follows (f.push (k.target x m)) :=
      ⟨hmet.elements_eq, hmet.taken_append, hmet.length_taken⟩
    obtain ⟨w', base', hrun, hw', htaken', hmakes'⟩ := ih hnext hmakes (hstates _ hs) hrest
    refine ⟨w', base', ?_, hw', htaken'.trans htaken, ?_⟩
    · rw [List.foldlM_cons, Loop.follow, hmeet, ok_bind]
      dsimp only
      rw [hadd]
      exact hrun
    · rwa [List.append_assoc] at hmakes'

/-- Taking an element out of the queue visits it in the search: the queue begins with the
element that the search has at its next place. -/
theorem exists_visit {queue : List α} (hw : w.Follows f)
    (h : st.Makes x₀ s₀ w.states followed base w.made) (hqueue : w.queue = x :: queue)
    (hlt : f.steps.size < f.found.size) (hx : f.found[f.steps.size] = x) :
    ∃ w' base', k.visit { w with queue := queue, taken := w.taken ++ [x] } x = .ok w' ∧
      w'.Follows (f.visit k.next id hlt) ∧ w'.taken = w.taken ++ [x] ∧
      st.Makes x₀ s₀ w'.states (followed ++ (k.moves x).map (x, ·)) base' w'.made := by
  have hmem : x ∈ w.elements := by
    rw [hw.elements_eq, ← hw.taken_append, hqueue]
    simp
  obtain ⟨s, hs⟩ : ∃ s, w.states.lookup x = some s :=
    Option.ne_none_iff_exists'.mp fun hnone => Loop.lookup_eq_none_iff.mp hnone hmem
  -- the element is out of the queue, and the search has taken its step, but no target was
  -- met yet
  let popped : Worklist α β := { w with queue := queue, taken := w.taken ++ [x] }
  let visited : Frontier α (List α) :=
    { f with steps := f.steps.push (k.next x) }
  have hpopped : popped.Follows visited := {
    elements_eq := hw.elements_eq
    taken_append := by
      show w.taken ++ [x] ++ queue = _
      rw [List.append_assoc, List.singleton_append, ← hqueue, hw.taken_append]
    length_taken := by
      show (w.taken ++ [x]).length = (f.steps.push _).size
      rw [List.length_append, hw.length_taken, Array.size_push, List.length_singleton] }
  obtain ⟨w', base', hrun, hw', htaken, hmakes⟩ :=
    exists_follow hpopped h (mem_of_lookup_eq_some hs) fun m (hm : m ∈ k.moves x) => hm
  refine ⟨w', base', ?_, ?_, htaken, hmakes⟩
  · show ((w.states.lookup x).elim _ _ >>= _) = _
    rw [hs]
    exact hrun
  · subst hx
    exact hw'

/-- A loop has ended: it left where the search stopped, if the search did, has queued all
that the search has found, and otherwise has made what the stages make. -/
structure Ran (st : Stages k) (x₀ : α) (s₀ : Nat) (f : Frontier α (List α)) (left? : Option α)
    (last : Worklist α β) : Prop where
  left_eq : left? = f.found[f.steps.size]?
  elements_eq : last.elements = f.found.toList
  taken_append : last.taken ++ last.queue = f.found.toList
  queue_eq : left? = none → last.queue = []
  makes : left? = none →
    ∃ base, st.Makes x₀ s₀ last.states (k.movesFrom last.taken) base last.made

/-- Round by round, a loop goes along with its search. The induction is on the search,
which ends because its elements are bounded; so the loop ends too. -/
theorem exists_run (hw : w.Follows f)
    (h : st.Makes x₀ s₀ w.states (k.movesFrom w.taken) base w.made) :
    ∃ left? last, k.run w = .ok (left?, last) ∧ st.Ran x₀ s₀ (k.search f) left? last := by
  unfold Loop.search
  fun_induction Frontier.run k.next id k.finite k.leaves f generalizing w base with
  | case1 f hlt hstop =>
    obtain ⟨queue, hqueue⟩ := hw.exists_queue hlt
    refine ⟨_, _, Loop.run_of_leaves hqueue hstop, {
      left_eq := (Array.getElem?_eq_getElem hlt).symm
      elements_eq := hw.elements_eq
      taken_append := ?_
      queue_eq := fun hnone => absurd hnone (Option.some_ne_none _)
      makes := fun hnone => absurd hnone (Option.some_ne_none _) }⟩
    show w.taken ++ [_] ++ queue = _
    rw [List.append_assoc, List.singleton_append, ← hqueue, hw.taken_append]
  | case2 f hlt hstop ih =>
    obtain ⟨queue, hqueue⟩ := hw.exists_queue hlt
    -- one round of the loop is one visit of the search
    obtain ⟨w', base', hvisit, hw', htaken, hmakes⟩ := exists_visit hw h hqueue hlt rfl
    obtain ⟨left?, last, hrun, hran⟩ := ih hw' (by rwa [htaken, Loop.movesFrom_concat])
    exact ⟨left?, last, (Loop.run_of_visit hqueue hstop hvisit).trans hrun, hran⟩
  | case3 f hge =>
    have hqueue : w.queue = [] := by
      rw [hw.queue_eq, List.drop_eq_nil_iff, Array.length_toList]
      exact Nat.le_of_not_lt hge
    exact ⟨none, w, Loop.run_of_nil hqueue, {
      left_eq := (Array.getElem?_eq_none (Nat.le_of_not_lt hge)).symm
      elements_eq := hw.elements_eq
      taken_append := hw.taken_append
      queue_eq := fun _ => hqueue
      makes := fun _ => ⟨base, h⟩ }⟩

-- ---------------------------------------------------------------------------
-- Whole loops
-- ---------------------------------------------------------------------------

/-- The first element is met before the first round. The search has found it by then, and
has visited nothing. -/
theorem exists_start_follows (hx : st.Proper x) :
    ∃ w s base, k.start x = .ok w ∧ w.Follows (Frontier.pushAll {} [x] : Frontier α (List α)) ∧
      w.taken = [] ∧ st.Makes x s w.states [] base w.made := by
  obtain ⟨base, s, made, hadd, hstart, hmakes⟩ := Makes.exists_first hx
  have hfound : (Frontier.pushAll {} [x] : Frontier α (List α)).found.toList = [x] :=
    Frontier.toList_found_push_of_not_mem (f := {}) (Array.not_mem_empty x)
  refine ⟨{ made := made, states := [(x, s)], queue := [x] }, s, base, ?_, ?_, rfl, hmakes⟩
  · have hmeet : k.meet { made := k.empty } x =
        .ok ({ made := base, states := [(x, s)], queue := [x] }, s) := by
      show (k.addState k.empty x >>= _) = _
      rw [hadd]
      rfl
    rw [Loop.start, hmeet, ok_bind]
    dsimp only
    rw [hstart]
    rfl
  · exact {
      elements_eq := hfound.symm
      taken_append := hfound.symm
      length_taken := by rw [Frontier.steps_pushAll]; rfl }

/-- A loop ends, and takes no more elements than there can be: all that it meets is
proper, and nothing is met twice. -/
theorem exists_endsWithin {bound : Nat} (st : Stages k) (hx : st.Proper x)
    (hbound : ∀ xs : List α, xs.Nodup → (∀ y ∈ xs, st.Proper y) → xs.length ≤ bound) :
    ∃ left? last s, k.EndsWithin x bound left? last ∧
      st.Ran x s (k.search (Frontier.pushAll {} [x])) left? last := by
  obtain ⟨w, s, base, hstart, hw, htaken, hmakes⟩ := exists_start_follows hx
  obtain ⟨left?, last, hrun, hran⟩ := exists_run hw (by rwa [htaken])
  -- targets of proper elements are proper, so all that the search finds is
  have hproper : ∀ y ∈ last.elements, st.Proper y := by
    intro y hy
    rw [hran.elements_eq, Array.mem_toList_iff] at hy
    refine Frontier.forall_mem_run (fun z hz => ?_) (fun z hz y hy => ?_) y hy
    · obtain rfl : z = x := by simpa using hz
      exact hx
    · obtain ⟨m, hm, rfl⟩ := List.mem_map.mp hy
      exact st.proper_target z hz m hm
  have hnodup : last.elements.Nodup := hran.elements_eq ▸ Frontier.nodup _
  refine ⟨left?, last, s, {
    run_eq := by rw [Loop.runFrom, hstart, ok_bind, hrun]
    nodup_elements := hnodup
    taken_append := hran.taken_append.trans hran.elements_eq.symm
    queue_eq := hran.queue_eq
    length_taken_le := ?_ }, hran⟩
  have hle := hbound last.elements hnodup hproper
  rw [hran.elements_eq, ← hran.taken_append, List.length_append] at hle
  omega

/-- A loop that never leaves has made what the stages make of the whole search. Its queue
is empty in the end, so every element was taken and all moves were followed. -/
theorem exists_makes {bound : Nat} (st : Stages k) (hleaves : k.leaves = fun _ => false)
    (hx : st.Proper x)
    (hbound : ∀ xs : List α, xs.Nodup → (∀ y ∈ xs, st.Proper y) → xs.length ≤ bound) :
    ∃ last s base, k.EndsWithin x bound none last ∧
      last.elements = explore k.next k.finite [x] ∧ st.size last.made ≤ bound ∧
      st.Makes x s last.states (k.movesFrom last.elements) base last.made := by
  obtain ⟨left?, last, s, hends, hran⟩ := exists_endsWithin st hx hbound
  have hsearch : k.search (Frontier.pushAll {} [x]) =
      Frontier.run k.next id k.finite (fun _ => false) (Frontier.pushAll {} [x]) := by
    rw [Loop.search, hleaves]
  have hnone : left? = none := by
    rw [hran.left_eq, hsearch]
    exact Array.getElem?_eq_none (Frontier.size_found_run_le _)
  obtain ⟨base, hmakes⟩ := hran.makes hnone
  subst hnone
  -- the queue is empty, so all that was queued was taken out
  have htaken : last.taken = last.elements := by
    rw [← hends.taken_append, hends.queue_eq rfl, List.append_nil]
  have hsize : st.size last.made ≤ bound := by
    have hle := hends.length_taken_le
    rw [htaken, Worklist.elements, List.length_map] at hle
    obtain ⟨-, hkept, -⟩ := hmakes.kept
    exact hkept ▸ Nat.le_trans hmakes.size_le hle
  refine ⟨last, s, base, hends, ?_, hsize, htaken ▸ hmakes⟩
  rw [hran.elements_eq, hsearch]
  rfl

end Rounds

end Stages

end PatternAutomata
