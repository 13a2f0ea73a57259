import PatternAutomata.Proofs.Thompson.Fragments

/-!
# Pattern automata — the counter of a construction

Fresh labels are numbered throughout a construction, so the number at which a
node's fragment begins says which nodes came before it. Each combinator takes the
same number of labels whatever the fragments are like (`Takes`), and so does each
node of a list.

## Results

* `takes_nodes`        — a list of nodes takes the labels of its nodes.
* `Made.eq_add_labels` — so does a fragment that is made along an expression.
-/

namespace PatternAutomata

/-- The number of fresh labels that the fragment of a node takes. Those of a concatenation
and of an interleaving are made of the states of their operands. -/
def Node.labels : Node → Nat
  | .char _ _ | .epsilon | .endMarker _ | .union _ _ | .star _ => 2
  | .concat _ _ | .shuffle _ _ => 0

/-- The number that the fragments of a list of nodes take. -/
def Node.labelsOf : List Node → Nat
  | [] => 0
  | top :: rest => top.labels + labelsOf rest

theorem Node.labelsOf_append (list more : List Node) :
    labelsOf (list ++ more) = labelsOf list + labelsOf more := by
  induction list with
  | nil => exact (Nat.zero_add _).symm
  | cons top list ih => rw [List.cons_append, labelsOf, labelsOf, ih, Nat.add_assoc]

namespace Workshop

variable {α β γ : Type} {i j k : Nat} {x : Build α} {f : α → Build β}

-- ---------------------------------------------------------------------------
-- Steps
-- ---------------------------------------------------------------------------

/-- Whenever the step succeeds, it has taken `k` fresh labels. As with `Yields`, success
is not claimed. -/
def Takes (x : Build α) (k : Nat) : Prop :=
  ∀ w a w', x.run w = .ok (a, w') → w'.next = w.next + k

theorem takes_pure (a : α) : Takes (pure a : Build α) 0 := by
  intro w a' w' h
  cases h
  rfl

/-- Operations on automata do not take labels from the workshop. -/
theorem takes_lift (x : Except Fault α) : Takes (liftM x : Build α) 0 := by
  intro w a w' h
  cases x with
  | error fault => exact nomatch h
  | ok a =>
    cases h
    rfl

theorem Takes.bind (hx : Takes x i) (hf : ∀ a, Takes (f a) j) : Takes (x >>= f) (i + j) := by
  intro w b w' h
  rw [StateT.run_bind] at h
  obtain ⟨⟨a, w₁⟩, hfirst, hsecond⟩ := bind_eq_ok.mp h
  rw [hf a w₁ b w' hsecond, hx w a w₁ hfirst, Nat.add_assoc]

/-- A step that takes no labels before one that does. -/
theorem Takes.lift_bind {x : Except Fault α} (hf : ∀ a, Takes (f a) k) :
    Takes (liftM x >>= f) k := by
  have h := (takes_lift x).bind hf
  rwa [Nat.zero_add] at h

/-- A loop whose rounds take no labels takes none. -/
theorem takes_foldlM {g : β → γ → Build β} (hg : ∀ b c, Takes (g b c) 0) (l : List γ) (b : β) :
    Takes (l.foldlM g b) 0 := by
  induction l generalizing b with
  | nil => exact takes_pure b
  | cons c l ih =>
    rw [List.foldlM_cons]
    exact (hg b c).bind ih

theorem takes_fresh (n : Nfa) : Takes (fresh n) 1 := by
  intro w a w' h
  cases h
  rfl

theorem takes_log (e : Event) : Takes (log e) 0 := by
  intro w a w' h
  cases h
  rfl

-- ---------------------------------------------------------------------------
-- Combinators
-- ---------------------------------------------------------------------------

theorem takes_atom (a : Symbol) : Takes (atom a) 2 :=
  (takes_fresh _).bind fun _ => (takes_fresh _).bind fun _ =>
    .lift_bind fun _ => .lift_bind fun _ => takes_lift _

theorem takes_star (n : Nfa) : Takes (star n) 2 :=
  .lift_bind fun _ => (takes_fresh _).bind fun _ => (takes_fresh _).bind fun _ =>
    (takes_foldlM (fun _ _ => .lift_bind fun _ => takes_lift _) _ _).bind fun _ =>
      .lift_bind fun _ => .lift_bind fun _ => .lift_bind fun _ => takes_lift _

theorem takes_concat (l r : Nfa) : Takes (concat l r) 0 :=
  .lift_bind fun _ => .lift_bind fun _ => .lift_bind fun _ =>
    takes_foldlM (fun _ _ => takes_lift _) _ _

theorem takes_union (l r : Nfa) : Takes (union l r) 2 :=
  .lift_bind fun _ => .lift_bind fun _ => .lift_bind fun _ =>
    (takes_fresh _).bind fun _ => (takes_fresh _).bind fun _ =>
      .lift_bind fun _ => .lift_bind fun _ => .lift_bind fun _ => .lift_bind fun _ => takes_lift _

theorem takes_shuffle (l r : Nfa) : Takes (shuffle l r) 0 :=
  .lift_bind fun _ => (takes_log _).bind fun _ => takes_pure _

-- ---------------------------------------------------------------------------
-- Nodes
-- ---------------------------------------------------------------------------

theorem takes_binary {combine : Nfa → Nfa → Build Nfa} (h : ∀ l r, Takes (combine l r) k)
    (slots : Slots Nfa) (id l r : Nat) : Takes (binary combine slots id l r) k :=
  .lift_bind fun _ => .lift_bind fun _ => (h _ _).bind fun _ => takes_pure _

/-- What a node takes does not depend on the fragments of its children: leaves and unions
take two labels, repetitions too, concatenations and interleavings none. -/
theorem takes_node (slots : Slots Nfa) (id : Nat) (top : Node) :
    Takes (node slots id top) top.labels := by
  cases top with
  | char | epsilon | endMarker => exact (takes_atom _).bind fun _ => takes_pure _
  | concat l r => exact takes_binary takes_concat slots id l r
  | union l r => exact takes_binary takes_union slots id l r
  | shuffle l r => exact takes_binary takes_shuffle slots id l r
  | star e => exact .lift_bind fun _ => (takes_star _).bind fun _ => takes_pure _

/-- A list of nodes takes the labels of its nodes. -/
theorem takes_nodes (slots : Slots Nfa) (id : Nat) (list : List Node) :
    Takes (nodes slots id list) (Node.labelsOf list) := by
  induction list generalizing slots id with
  | nil => exact takes_pure slots
  | cons top rest ih =>
    rw [nodes_cons, Node.labelsOf]
    exact (takes_node slots id top).bind fun slots => ih slots (id + 1)

/-- A fragment takes the labels of the nodes along which it is made, so what comes before
a node says at which number its fragment begins. -/
theorem Made.eq_add_labels {e : Expr (Letter × Nat)} {lo hi : Nat} {n : Nfa}
    (h : Made e lo n hi) (base : Nat) : hi = lo + Node.labelsOf (e.nodes base) := by
  induction h generalizing base with
  | epsilon | char | endMarker => rfl
  | @concat l r _ _ _ _ _ _ _ _ _ ihl ihr | @union l r _ _ _ _ _ _ _ _ _ ihl ihr
  | @shuffle l r _ _ _ _ _ _ _ _ _ _ _ _ _ ihl ihr =>
    rw [ihr (base + l.size), ihl base]
    simp [Expr.nodes, Node.labelsOf_append, Node.labelsOf, Node.labels, Nat.add_assoc]
  | star _ _ ih =>
    rw [ih base]
    simp [Expr.nodes, Node.labelsOf_append, Node.labelsOf, Node.labels, Nat.add_assoc]

end Workshop

end PatternAutomata
