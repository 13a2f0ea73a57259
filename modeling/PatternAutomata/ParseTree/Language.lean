import PatternAutomata.ParseTree

/-!
# Pattern automata — the language of a parse tree

Which words a node of a parse tree stands for is said on the list of nodes, by
what each kind of node makes of the words of its children. Two readings matter:
a literal reads its character, which gives the words of the pattern, or every
leaf reads its own position, which gives the sequences of positions that a word
passes through.

## Results

* `nodeMatches_iff` — a list of nodes that holds an expression stands for the same words.
* `ParseTree.language_ofExpr` — so the tree of a pattern has the words of its expression.
-/

namespace PatternAutomata

/-- What a letter adds to a word: the end marker reads nothing. -/
def Letter.reads : Letter → List Char
  | char c => [c]
  | endMarker => []

/-- `NodeMatches nodes read id w`: the node at place `id` stands for the word `w`, when a
leaf of letter `a` and position `p` reads `read (a, p)`. -/
inductive NodeMatches {σ : Type} (nodes : List Node) (read : Letter × Nat → List σ) :
    Nat → List σ → Prop
  | epsilon {id : Nat} : nodes[id]? = some .epsilon → NodeMatches nodes read id []
  | char {id p : Nat} {c : Char} :
      nodes[id]? = some (.char c p) → NodeMatches nodes read id (read (.char c, p))
  | endMarker {id p : Nat} :
      nodes[id]? = some (.endMarker p) → NodeMatches nodes read id (read (.endMarker, p))
  | concat {id l r : Nat} {u v : List σ} : nodes[id]? = some (.concat l r) →
      NodeMatches nodes read l u → NodeMatches nodes read r v →
      NodeMatches nodes read id (u ++ v)
  | unionLeft {id l r : Nat} {u : List σ} : nodes[id]? = some (.union l r) →
      NodeMatches nodes read l u → NodeMatches nodes read id u
  | unionRight {id l r : Nat} {v : List σ} : nodes[id]? = some (.union l r) →
      NodeMatches nodes read r v → NodeMatches nodes read id v
  | shuffle {id l r : Nat} {u v w : List σ} : nodes[id]? = some (.shuffle l r) →
      NodeMatches nodes read l u → NodeMatches nodes read r v → Interleaving u v w →
      NodeMatches nodes read id w
  | starNil {id e : Nat} : nodes[id]? = some (.star e) → NodeMatches nodes read id []
  | starMore {id e : Nat} {u v : List σ} : nodes[id]? = some (.star e) →
      NodeMatches nodes read e u → NodeMatches nodes read id v →
      NodeMatches nodes read id (u ++ v)

section Inversion

variable {σ : Type} {nodes : List Node} {read : Letter × Nat → List σ} {id : Nat} {w : List σ}

/-- A node of `ε` stands for the empty word only. -/
theorem nodeMatches_epsilon_iff (h : nodes[id]? = some .epsilon) :
    NodeMatches nodes read id w ↔ w = [] := by
  refine ⟨fun hw => ?_, fun hw => hw ▸ .epsilon h⟩
  cases hw <;> simp_all

theorem nodeMatches_char_iff {c : Char} {p : Nat} (h : nodes[id]? = some (.char c p)) :
    NodeMatches nodes read id w ↔ w = read (.char c, p) := by
  refine ⟨fun hw => ?_, fun hw => hw ▸ .char h⟩
  cases hw <;> simp_all

theorem nodeMatches_endMarker_iff {p : Nat} (h : nodes[id]? = some (.endMarker p)) :
    NodeMatches nodes read id w ↔ w = read (.endMarker, p) := by
  refine ⟨fun hw => ?_, fun hw => hw ▸ .endMarker h⟩
  cases hw <;> simp_all

/-- What a concatenation's node stands for, in the words of its children. -/
theorem nodeMatches_concat_iff {l r : Nat} (h : nodes[id]? = some (.concat l r)) :
    NodeMatches nodes read id w ↔
      ∃ u v, NodeMatches nodes read l u ∧ NodeMatches nodes read r v ∧ u ++ v = w := by
  refine ⟨fun hw => ?_, fun ⟨u, v, hu, hv, hw⟩ => hw ▸ .concat h hu hv⟩
  cases hw with
  | concat h' hu hv =>
    cases h.symm.trans h'
    exact ⟨_, _, hu, hv, rfl⟩
  | _ => simp_all

theorem nodeMatches_union_iff {l r : Nat} (h : nodes[id]? = some (.union l r)) :
    NodeMatches nodes read id w ↔
      NodeMatches nodes read l w ∨ NodeMatches nodes read r w := by
  refine ⟨fun hw => ?_, fun hw => hw.elim (.unionLeft h) (.unionRight h)⟩
  cases hw with
  | unionLeft h' hu =>
    cases h.symm.trans h'
    exact .inl hu
  | unionRight h' hv =>
    cases h.symm.trans h'
    exact .inr hv
  | _ => simp_all

theorem nodeMatches_shuffle_iff {l r : Nat} (h : nodes[id]? = some (.shuffle l r)) :
    NodeMatches nodes read id w ↔
      ∃ u v, NodeMatches nodes read l u ∧ NodeMatches nodes read r v ∧
        Interleaving u v w := by
  refine ⟨fun hw => ?_, fun ⟨u, v, hu, hv, hw⟩ => .shuffle h hu hv hw⟩
  cases hw with
  | shuffle h' hu hv hw =>
    cases h.symm.trans h'
    exact ⟨_, _, hu, hv, hw⟩
  | _ => simp_all

/-- What a repetition's node stands for, in the words of its child. The node is its own
rest, so this is an induction and not a reading of the rules. -/
theorem nodeMatches_star_iff {e : Nat} (h : nodes[id]? = some (.star e)) :
    NodeMatches nodes read id w ↔ Repeated (NodeMatches nodes read e) w := by
  constructor
  · intro hw
    -- along the rounds: each reads a word of the body
    induction hw with
    | starNil _ => exact repeated_nil
    | starMore h' hu _ _ ihv =>
      cases h.symm.trans h'
      exact (ihv h).cons hu
    | _ => simp_all
  · rintro ⟨ws, hws, rfl⟩
    induction ws with
    | nil => exact .starNil h
    | cons u ws ih =>
      exact .starMore h (hws u List.mem_cons_self)
        (ih fun v hv => hws v (List.mem_cons_of_mem _ hv))

end Inversion

-- ---------------------------------------------------------------------------
-- Expressions in lists of nodes
-- ---------------------------------------------------------------------------

/-- The list of nodes holds the nodes of `e` from place `base` on. -/
def Holds (nodes : List Node) (base : Nat) (e : Expr (Letter × Nat)) : Prop :=
  ∃ before after, before.length = base ∧ nodes = before ++ (e.nodes base ++ after)

namespace Holds

variable {nodes : List Node} {base : Nat}

/-- What is held of an operator with two operands. -/
theorem binary {l r : Expr (Letter × Nat)} {top : Node}
    (h : ∃ before after, before.length = base ∧
      nodes = before ++ ((l.nodes base ++ (r.nodes (base + l.size) ++ [top])) ++ after)) :
    Holds nodes base l ∧ Holds nodes (base + l.size) r ∧
      nodes[base + (l.size + r.size + 1) - 1]? = some top := by
  obtain ⟨before, after, hlen, rfl⟩ := h
  refine ⟨⟨before, r.nodes (base + l.size) ++ [top] ++ after, hlen, by simp⟩,
    ⟨before ++ l.nodes base, [top] ++ after, by simp [hlen, Expr.length_nodes], by simp⟩, ?_⟩
  have hplace : base + (l.size + r.size + 1) - 1 =
      (before ++ (l.nodes base ++ r.nodes (base + l.size))).length := by
    simp only [List.length_append, Expr.length_nodes, hlen]
    omega
  have hsplit : before ++ ((l.nodes base ++ (r.nodes (base + l.size) ++ [top])) ++ after) =
      (before ++ (l.nodes base ++ r.nodes (base + l.size))) ++ top :: after := by simp
  rw [hplace, hsplit, List.getElem?_append_right (Nat.le_refl _), Nat.sub_self,
    List.getElem?_cons_zero]

/-- What is held of a repetition. -/
theorem star {e : Expr (Letter × Nat)} (h : Holds nodes base (.star e)) :
    Holds nodes base e ∧ nodes[base + (e.size + 1) - 1]? = some (.star (base + e.size - 1)) := by
  obtain ⟨before, after, hlen, rfl⟩ := h
  refine ⟨⟨before, [.star (base + e.size - 1)] ++ after, hlen, by simp [Expr.nodes]⟩, ?_⟩
  have hplace : base + (e.size + 1) - 1 = (before ++ e.nodes base).length := by
    simp only [List.length_append, Expr.length_nodes, hlen]
    omega
  have hsplit : before ++ ((Expr.star e).nodes base ++ after) =
      (before ++ e.nodes base) ++ .star (base + e.size - 1) :: after := by simp [Expr.nodes]
  rw [hplace, hsplit, List.getElem?_append_right (Nat.le_refl _), Nat.sub_self,
    List.getElem?_cons_zero]

/-- What is held of a single node. -/
theorem single {e : Expr (Letter × Nat)} {node : Node} (hnode : e.nodes base = [node])
    (h : Holds nodes base e) : nodes[base]? = some node := by
  obtain ⟨before, after, rfl, rfl⟩ := h
  simp [hnode]

end Holds

/-- A list of nodes that holds an expression stands for the same words at its last node. -/
theorem nodeMatches_iff {σ : Type} {nodes : List Node} {read : Letter × Nat → List σ}
    {e : Expr (Letter × Nat)} {base : Nat} {w : List σ} (h : Holds nodes base e) :
    NodeMatches nodes read (base + e.size - 1) w ↔ e.Matches read w := by
  induction e generalizing base w with
  | epsilon =>
    rw [Expr.matches_epsilon_iff]
    exact nodeMatches_epsilon_iff (h.single rfl)
  | leaf a =>
    rw [Expr.matches_leaf_iff]
    obtain ⟨c | _, p⟩ := a
    · exact nodeMatches_char_iff (h.single rfl)
    · exact nodeMatches_endMarker_iff (h.single rfl)
  | concat l r ihl ihr =>
    -- both operands are held too, and the node points to where they end
    obtain ⟨hl, hr, hnode⟩ := Holds.binary h
    rw [Expr.size, nodeMatches_concat_iff hnode, Expr.matches_concat_iff]
    simp only [ihl hl, ihr hr]
  | union l r ihl ihr =>
    obtain ⟨hl, hr, hnode⟩ := Holds.binary h
    rw [Expr.size, nodeMatches_union_iff hnode, Expr.matches_union_iff, ihl hl, ihr hr]
  | shuffle l r ihl ihr =>
    obtain ⟨hl, hr, hnode⟩ := Holds.binary h
    rw [Expr.size, nodeMatches_shuffle_iff hnode, Expr.matches_shuffle_iff]
    simp only [ihl hl, ihr hr]
  | star e ih =>
    obtain ⟨he, hnode⟩ := h.star
    rw [Expr.size, nodeMatches_star_iff hnode, Expr.matches_star_iff]
    simp only [Repeated, ih he]

namespace ParseTree

/-- The words of the pattern. -/
def Language (t : ParseTree) (w : List Char) : Prop :=
  NodeMatches t.nodes (·.1.reads) t.root w

/-- The sequences of positions that the words of a node pass through. -/
def Passes (t : ParseTree) (id : Nat) (positions : List Nat) : Prop :=
  NodeMatches t.nodes (fun a => [a.2]) id positions

/-- The nodes of a pattern's tree are those of its marked expression. -/
theorem holds_ofExpr {pattern : String} {d : Dialect} {body : Expr Char} :
    Holds (ofExpr pattern d body).nodes 0 body.marked :=
  ⟨[], [], rfl, by simp [nodes_ofExpr]⟩

/-- The tree of a pattern has the words of the pattern's expression. -/
theorem language_ofExpr {pattern : String} {d : Dialect} {body : Expr Char} {w : List Char} :
    (ofExpr pattern d body).Language w ↔ body.Matches (fun c => [c]) w := by
  have hroot : (ofExpr pattern d body).root = 0 + body.marked.size - 1 := by
    simp [root, nodes_ofExpr, Expr.length_nodes]
  rw [Language, hroot, nodeMatches_iff holds_ofExpr]
  have hletters : Expr.Matches (fun a => a.1.reads) body.marked w ↔
      Expr.Matches Letter.reads (body.marked.map (·.1)) w := Expr.matches_map_iff.symm
  refine hletters.trans ?_
  rw [Expr.marked, Expr.numberFrom_eq, Expr.map_fst_number, Expr.matches_concat_iff]
  simp [Expr.matches_map_iff, Expr.matches_leaf_iff, Letter.reads]

end ParseTree

end PatternAutomata
