import Mathlib.Data.List.Nodup
import Mathlib.Data.List.ProdSigma
import PatternAutomata.ParseTree.Expression
import PatternAutomata.Proofs.Parser.Scan
import PatternAutomata.Proofs.Positions.Follow
import PatternAutomata.Proofs.Thompson.Ties
import PatternAutomata.Proofs.Thompson.Trim

/-!
# Pattern automata — the form of Thompson's automata

A fragment has two ends: a start that no transition enters, and one final state
that no transition leaves. Every combinator gives its result such ends, whatever is
between them, and how many states it adds does not depend on its operands. Only a
product multiplies: since all states of its operands are useful, every pair of them
is reached, and the labels of pairs are distinct.

Without interleavings, the states of a fragment are numbered as their labels are.
Every combinator adds two states at most, so there are at most two for each node of
the tree.

## Results

* `IsAtom.ends`, `IsStar.ends`, `IsConcat.ends`, `IsUnion.ends`, `Nfa.IsProduct.ends` — the ends.
* `Nfa.IsProduct.stateCount_eq_mul` — the states of a product are all pairs.
* `Made.stateCount_eq`      — the number of states is the one that recursion gives.
* `Made.labels_eq`          — without interleavings the labels are numbered with the states.
* `thompson_normalForm`     — all this holds of the automaton of a pattern that compiles.
-/

namespace PatternAutomata

-- ---------------------------------------------------------------------------
-- The size
-- ---------------------------------------------------------------------------

namespace Expr

variable {α : Type}

/-- The number of states that Thompson's construction makes. Concatenation joins two
fragments without new states, and an interleaving has all pairs. -/
def thompsonSize : Expr α → Nat
  | epsilon => 2
  | leaf _ => 2
  | concat l r => l.thompsonSize + r.thompsonSize
  | union l r => l.thompsonSize + r.thompsonSize + 2
  | shuffle l r => l.thompsonSize * r.thompsonSize
  | star e => e.thompsonSize + 2

/-- Without interleavings, there are at most two states for each node, by induction on the
expression. -/
theorem Sequential.thompsonSize_le {e : Expr α} (h : e.Sequential) :
    e.thompsonSize ≤ 2 * e.size := by
  induction e with
  | epsilon => exact Nat.le_refl _
  | leaf a => exact Nat.le_refl _
  | concat l r ihl ihr | union l r ihl ihr =>
    have hl := ihl h.1
    have hr := ihr h.2
    simp only [thompsonSize, size]
    omega
  | shuffle l r => exact absurd h id
  | star e ih =>
    have he := ih h
    simp only [thompsonSize, size]
    omega

end Expr

-- ---------------------------------------------------------------------------
-- Ends
-- ---------------------------------------------------------------------------

namespace Nfa

variable {l r n : Nfa} {s t f g : Nat}

/-- A start `s` that nothing leads into, and another state `f`, the only one that is final, that
nothing leads out of. -/
structure Ends (n : Nfa) (s f : Nat) : Prop where
  start : n.start = some s
  mem_finals : ∀ x, x ∈ n.finals ↔ x = f
  ne : s ≠ f
  not_into : ∀ x a, ¬ n.Edge x a s
  not_out_of : ∀ a y, ¬ n.Edge f a y

/-- The pairs of useful states are all reached, since each operand can go on to its member
while the other one stands still. -/
theorem IsProduct.mem_reachedPairs_iff (hl : l.Valid) (hr : r.Valid) (hul : l.Useful)
    (hur : r.Useful) (hs : l.start = some s) (ht : r.start = some t) (h : IsProduct l r (s, t) n)
    {p : Nat × Nat} : p ∈ reachedPairs l r (s, t) ↔ HasPair l r p := by
  have horigin : HasPair l r (s, t) := ⟨hl.start_lt s hs, hr.start_lt t ht⟩
  refine ⟨hasPair_of_mem_reachedPairs hl hr horigin, fun hp => ?_⟩
  obtain ⟨x, _, hx, _⟩ := h.exists_path_to hl hr hul hur hs ht hp
  exact List.mem_of_getElem? hx

/-- The states of a product are all pairs. Both lists of pairs are without repetition and
have the same members, so they are of one length. -/
theorem IsProduct.stateCount_eq_mul (hl : l.Valid) (hr : r.Valid) (hul : l.Useful)
    (hur : r.Useful) (hs : l.start = some s) (ht : r.start = some t)
    (h : IsProduct l r (s, t) n) : n.stateCount = l.stateCount * r.stateCount := by
  have hnodup : (reachedPairs l r (s, t)).Nodup := nodup_explore
  have hall : (reachedPairs l r (s, t)).Perm
      (List.range l.stateCount ×ˢ List.range r.stateCount) := by
    refine (List.perm_ext_iff_of_nodup hnodup
      (List.Nodup.product List.nodup_range List.nodup_range)).mpr fun p => ?_
    rw [h.mem_reachedPairs_iff hl hr hul hur hs ht, List.mem_product, List.mem_range,
      List.mem_range]
    rfl
  rw [h.stateCount, hall.length_eq, List.length_product, List.length_range, List.length_range]

/-- A product starts at the pair of the starts and ends at that of the final states. An
edge of the product is one of an operand, which leads neither into its start nor out of
its final state. -/
theorem IsProduct.ends (hl : l.Valid) (hr : r.Valid) (hul : l.Useful) (hur : r.Useful)
    (hendsl : l.Ends s f) (hendsr : r.Ends t g) (h : IsProduct l r (s, t) n) :
    n.Ends 0 (placeOf l r (s, t) (f, g)) := by
  have hf : f ∈ l.finals := (hendsl.mem_finals f).mpr rfl
  have hg : g ∈ r.finals := (hendsr.mem_finals g).mpr rfl
  have hlast : (f, g) ∈ reachedPairs l r (s, t) :=
    (h.mem_reachedPairs_iff hl hr hul hur hendsl.start hendsr.start).mpr
      ⟨hl.finals_lt f hf, hr.finals_lt g hg⟩
  -- a pair has one state
  have hplace : ∀ x, (reachedPairs l r (s, t))[x]? = some (f, g) ↔
      x = placeOf l r (s, t) (f, g) := fun x => getElem?_reachedPairs_eq_some_iff hlast
  have horigin : (reachedPairs l r (s, t))[0]? = some (s, t) := getElem?_zero_reachedPairs
  refine {
    start := h.start
    mem_finals := fun x => ?_
    ne := fun hzero => ?_
    not_into := fun x a he => ?_
    not_out_of := fun a y he => ?_ }
  · rw [h.mem_finals, ← hplace]
    constructor
    · intro ⟨p, hp, hpl, hpr⟩
      rw [hp, ← (hendsl.mem_finals p.1).mp hpl, ← (hendsr.mem_finals p.2).mp hpr]
    · intro hx
      exact ⟨(f, g), hx, hf, hg⟩
  · rw [(hplace 0).mpr hzero] at horigin
    exact hendsl.ne (Prod.mk.inj (Option.some.inj horigin)).1.symm
  · obtain ⟨p, q, -, hq, he⟩ := (h.edge x a 0).mp he
    obtain rfl := Option.some.inj (horigin.symm.trans hq)
    rcases he with ⟨he, -⟩ | ⟨he, -⟩
    · exact hendsl.not_into _ _ he
    · exact hendsr.not_into _ _ he
  · obtain ⟨p, q, hp, -, he⟩ := (h.edge _ a y).mp he
    obtain rfl := Option.some.inj (((hplace _).mpr rfl).symm.trans hp)
    rcases he with ⟨he, -⟩ | ⟨he, -⟩
    · exact hendsl.not_out_of _ _ he
    · exact hendsr.not_out_of _ _ he

end Nfa

namespace Workshop

variable {l r m n : Nfa} {a : Symbol} {k s t f g : Nat} {extra : List String}

/-- A transition is between two states, the first of which is the start and the second the
one that is final. -/
theorem IsAtom.ends (h : IsAtom a k n) : n.Ends 0 1 where
  start := h.start
  mem_finals := h.mem_finals
  ne := Nat.zero_ne_one
  not_into x b he := by
    obtain ⟨-, -, hy⟩ := (h.edge x b 0).mp he
    omega
  not_out_of b y he := by
    obtain ⟨hx, -, -⟩ := (h.edge 1 b y).mp he
    omega

/-- A repetition has new ends, whatever the operand is like. All new edges lead out of the
new start or out of old states, and none into the new start. -/
theorem IsStar.ends (hm : m.Valid) (h : IsStar m k n) : n.Ends m.stateCount (m.stateCount + 1) where
  start := h.start
  mem_finals := h.mem_finals
  ne := (Nat.succ_ne_self _).symm
  not_into x b he := by
    -- an edge of the body, or a new one back to its start or to the new final state
    rcases (h.edge _ _ _).mp he with he | ⟨-, -, hy | hy⟩
    · exact absurd (hm.edge_lt _ _ _ he) (Nat.lt_irrefl _)
    · exact absurd (hm.start_lt _ hy) (Nat.lt_irrefl _)
    · omega
  not_out_of b y he := by
    rcases (h.edge _ _ _).mp he with he | ⟨-, hx | hx, -⟩
    · have hlt := hm.source_lt he
      omega
    · have hlt := hm.finals_lt _ hx
      omega
    · omega

/-- A concatenation starts as the left operand does and ends as the right one does. The
edges across lead from the one to the other, and so neither into the start nor out of the
final state. -/
theorem IsConcat.ends (hl : l.Valid) (hendsl : l.Ends s f) (hendsr : r.Ends t g)
    (h : IsConcat l r n) : n.Ends s (g + l.stateCount) := by
  have hlt := hl.start_lt s hendsl.start
  refine {
    start := h.start.trans hendsl.start
    mem_finals := fun x => ?_
    ne := by omega
    not_into := fun x b he => ?_
    not_out_of := fun b y he => ?_ }
  · rw [h.mem_finals]
    simp only [hendsr.mem_finals, exists_eq_left]
  · -- edges of the left operand, of the right one, and those across
    rcases (h.edge _ _ _).mp he with he | ⟨_, y, -, -, hy⟩ | ⟨-, -, y, -, hy⟩
    · exact hendsl.not_into x b he
    · omega
    · omega
  · rcases (h.edge _ _ _).mp he with he | ⟨x, y, he, hx, -⟩ | ⟨-, hx, -⟩
    · have hlt := hl.source_lt he
      omega
    · obtain rfl := Nat.add_right_cancel hx
      exact hendsr.not_out_of b y he
    · have hlt := hl.finals_lt _ hx
      omega

/-- An alternative has new ends, whatever the operands are like. Each kind of edge is
ruled out by where its ends are among the states. -/
theorem IsUnion.ends (hl : l.Valid) (hr : r.Valid) (h : IsUnion l r k n) :
    n.Ends (l.stateCount + r.stateCount) (l.stateCount + r.stateCount + 1) where
  start := h.start
  mem_finals := h.mem_finals
  ne := (Nat.succ_ne_self _).symm
  not_into x b he := by
    -- edges of both operands, those into the final state, and those out of the start
    rcases (h.edge _ _ _).mp he with he | ⟨_, y, he, -, hy⟩ |
      ⟨-, ⟨-, hy⟩ | ⟨-, hy | ⟨y, hy, hsum⟩⟩⟩
    · have hlt := hl.edge_lt _ _ _ he
      omega
    · have hlt := hr.edge_lt _ _ _ he
      omega
    · omega
    · have hlt := hl.start_lt _ hy
      omega
    · have hlt := hr.start_lt _ hy
      omega
  not_out_of b y he := by
    rcases (h.edge _ _ _).mp he with he | ⟨x, _, he, hx, -⟩ |
      ⟨-, ⟨hx | ⟨x, hx, hsum⟩, -⟩ | ⟨hx, -⟩⟩
    · have hlt := hl.source_lt he
      omega
    · have hlt := hr.source_lt he
      omega
    · have hlt := hl.finals_lt _ hx
      omega
    · have hlt := hr.finals_lt _ hx
      omega
    · omega

-- ---------------------------------------------------------------------------
-- What is made
-- ---------------------------------------------------------------------------

variable {e : Expr (Letter × Nat)} {lo hi : Nat}

/-- Every fragment has two ends, by induction on how it was made. A product needs its
operands to be useful, as all of its pairs of ends have to be reached. -/
theorem Made.exists_ends (h : Made e lo n hi) : ∃ s f, n.Ends s f := by
  induction h with
  | epsilon h | char h | endMarker h => exact ⟨0, 1, h.ends⟩
  | concat hl hr h ihl ihr =>
    obtain ⟨s, f, hendsl⟩ := ihl
    obtain ⟨t, g, hendsr⟩ := ihr
    exact ⟨s, _, h.ends hl.fragment.valid hendsl hendsr⟩
  | union hl hr h => exact ⟨_, _, h.ends hl.fragment.valid hr.fragment.valid⟩
  | shuffle hl hr hs ht h ihl ihr =>
    obtain ⟨s, f, hendsl⟩ := ihl
    obtain ⟨t, g, hendsr⟩ := ihr
    obtain rfl := Option.some.inj (hs.symm.trans hendsl.start)
    obtain rfl := Option.some.inj (ht.symm.trans hendsr.start)
    exact ⟨0, _, h.ends hl.fragment.valid hr.fragment.valid hl.useful hr.useful hendsl hendsr⟩
  | star hm h => exact ⟨_, _, h.ends hm.fragment.valid⟩

/-- The number of states is the one that recursion along the expression gives. For a
product it is the number of all pairs, since each of them is reached. -/
theorem Made.stateCount_eq (h : Made e lo n hi) : n.stateCount = e.thompsonSize := by
  induction h with
  | epsilon h | char h | endMarker h => exact h.stateCount
  | concat _ _ h ihl ihr => rw [h.stateCount, ihl, ihr]; rfl
  | union _ _ h ihl ihr => rw [h.stateCount, ihl, ihr]; rfl
  | shuffle hl hr hs ht h ihl ihr =>
    rw [h.stateCount_eq_mul hl.fragment.valid hr.fragment.valid hl.useful hr.useful hs ht, ihl,
      ihr]
    rfl
  | star _ h ih => rw [h.stateCount, ih]; rfl

/-- Labels that are numbered on from those before them. -/
theorem freshLabels_append (lo i j : Nat) :
    (List.range' lo i).map freshLabel ++ (List.range' (lo + i) j).map freshLabel =
      (List.range' lo (i + j)).map freshLabel := by
  rw [← List.map_append, List.range'_append_1]

/-- Without interleavings every fresh label stays that of a state, and so the labels are
numbered with the states. A product would drop the labels of its operands. -/
theorem Made.labels_eq (h : Made e lo n hi) (hseq : e.Sequential) :
    hi = lo + n.stateCount ∧ n.labels.toList = (List.range' lo n.stateCount).map freshLabel := by
  induction h with
  | epsilon h | char h | endMarker h =>
    rw [h.stateCount, h.labels]
    exact ⟨rfl, rfl⟩
  | concat hl hr h ihl ihr =>
    obtain ⟨rfl, hlabels⟩ := ihl hseq.1
    -- the right operand's labels go on where those of the left one end
    obtain ⟨rfl, hlabels'⟩ := ihr hseq.2
    rw [h.stateCount, h.labels, hlabels, hlabels', freshLabels_append, List.append_nil]
    exact ⟨Nat.add_assoc .., rfl⟩
  | @union _ _ lo _ _ _ _ _ _ _ h ihl ihr =>
    obtain ⟨rfl, hlabels⟩ := ihl hseq.1
    obtain ⟨rfl, hlabels'⟩ := ihr hseq.2
    rw [h.stateCount, h.labels, hlabels, hlabels', freshLabels_append, Nat.add_assoc lo,
      ← freshLabels_append lo (_ + _)]
    exact ⟨rfl, rfl⟩
  | shuffle => exact absurd hseq id
  | star hm h ih =>
    obtain ⟨rfl, hlabels⟩ := ih hseq
    rw [h.stateCount, h.labels, hlabels, ← freshLabels_append]
    exact ⟨rfl, rfl⟩

end Workshop

-- ---------------------------------------------------------------------------
-- Thompson's automaton
-- ---------------------------------------------------------------------------

/-- What the automaton of a tree looks like, whatever the tree is. The last two facts are
those that interleavings break: a product has labels of pairs, and as many states as there
are pairs. -/
structure ParseTree.NormalForm (t : ParseTree) (n : Nfa) : Prop where
  ends : ∃ s f, n.start = some s ∧ n.finals.toList = [f] ∧ s ≠ f ∧
    (∀ x a, (x, a, s) ∉ n.transitions) ∧ ∀ a y, (f, a, y) ∉ n.transitions
  not_loop : ∀ s a, (s, a, s) ∉ n.transitions
  stateCount_eq : ∃ e, t.expr? = some e ∧ n.stateCount = e.thompsonSize
  /-- A state's number is that of its label. -/
  label_eq : t.hasShuffle = false → ∀ i < n.stateCount, n.label i = .ok s!"q{i}"
  stateCount_le : t.hasShuffle = false → n.stateCount ≤ 2 * t.nodes.length

/-- A fragment that was made along the whole tree has this form. Ends and loops are those
of the last step, and the number of states is added up along the expression. -/
theorem Workshop.Made.normalForm {pattern : String} {d : Dialect} {body : Expr Char} {n : Nfa}
    {hi : Nat} (h : Made body.marked 0 n hi) : (ParseTree.ofExpr pattern d body).NormalForm n where
  ends := by
    obtain ⟨s, f, hends⟩ := h.exists_ends
    have hfinals : n.finals = .singleton f := SortedSet.ext fun x => by
      rw [hends.mem_finals, SortedSet.mem_singleton]
    refine ⟨s, f, hends.start, by rw [hfinals]; rfl, hends.ne, fun x a => ?_, fun a y => ?_⟩
    · rw [Nfa.mem_transitions_iff]
      exact hends.not_into x a
    · rw [Nfa.mem_transitions_iff]
      exact hends.not_out_of a y
  not_loop s a := by
    rw [Nfa.mem_transitions_iff]
    exact h.tied.1.not_loop s a
  stateCount_eq := by
    refine ⟨_, ParseTree.expr?_ofExpr, ?_⟩
    rw [h.stateCount_eq, Expr.marked, Expr.numberFrom_eq]
  -- without interleavings all labels are fresh ones, in their order
  label_eq hshuffle i hi := by
    obtain ⟨-, hlabels⟩ := h.labels_eq (ParseTree.hasShuffle_ofExpr_iff.mp hshuffle)
    refine StateTable.label_eq_ok_iff.mpr ?_
    rw [← Labels.getElem?_toList, hlabels, List.getElem?_map, List.getElem?_range' hi]
    simp [freshLabel]
  stateCount_le hshuffle := by
    rw [h.stateCount_eq, ParseTree.nodes_ofExpr, Expr.length_nodes]
    exact (ParseTree.hasShuffle_ofExpr_iff.mp hshuffle).thompsonSize_le

/-- **Thompson's automata have a normal form**: that of a pattern that compiles has a
single start that no edge leads to, a single final state that none leads out of, no loops,
and as many states as the recursion along its tree gives. -/
theorem thompson_normalForm {o : Options} {pattern : String} {t : ParseTree}
    (h : compile o pattern = .ok t) : ∃ n, t.thompson = .ok n ∧ t.NormalForm n := by
  obtain ⟨body, -, rfl⟩ := compile_eq_ok_iff.mp h
  obtain ⟨n, hi, hn, hmade⟩ := ParseTree.thompson_ofExpr pattern o.dialect body
  exact ⟨n, hn, hmade.normalForm⟩

/-- With interleavings inside one another, and without any. -/
theorem thompson_normalForm_nested_and_plain :
    (∃ t, compile { dialect := .parallel } "((a&b)*&c|d)&a" = .ok t ∧
      ∃ n, t.thompson = .ok n ∧ t.NormalForm n) ∧
    ∃ t, compile {} "(a|b)*c" = .ok t ∧ ∃ n, t.thompson = .ok n ∧ t.NormalForm n := by
  have hscan : firstError? { dialect := .parallel } "((a&b)*&c|d)&a" = none := by decide
  have hscan' : firstError? {} "(a|b)*c" = none := by decide
  obtain ⟨body, h⟩ := exists_compile_eq_ok hscan
  obtain ⟨body', h'⟩ := exists_compile_eq_ok hscan'
  exact ⟨⟨_, h, thompson_normalForm h⟩, _, h', thompson_normalForm h'⟩

end PatternAutomata
