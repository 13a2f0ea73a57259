import PatternAutomata.Direct
import PatternAutomata.Proofs.ParseTree.WellFormed
import PatternAutomata.Proofs.Positions.Sequences

/-!
# Pattern automata — the table of positions after one another

The links of a tree are made at its concatenations and repetitions, and the table
collects them. In a tree of a pattern, where nothing is interleaved, the entry of
a position has exactly the positions that come right after it in some word.

## Results

* `exists_ofLinks`     — the table puts the targets of every link after its sources.
* `exists_joins_iff`   — the nodes of an expression join what follows one another in its words.
* `exists_followTable` — the table of a pattern's tree is made, and it is right.
-/

namespace PatternAutomata

-- ---------------------------------------------------------------------------
-- Collecting links
-- ---------------------------------------------------------------------------

/-- Some link leads from `p` to `q`. -/
def Linked (links : List Link) (p q : Nat) : Prop := ∃ l ∈ links, p ∈ l.sources ∧ q ∈ l.targets

theorem linked_concat_iff {links : List Link} {l : Link} {p q : Nat} :
    Linked (links ++ [l]) p q ↔ Linked links p q ∨ p ∈ l.sources ∧ q ∈ l.targets := by
  simp only [Linked, List.mem_append, List.mem_singleton, or_and_right, exists_or,
    exists_eq_left]

namespace FollowTable

variable {after : Array (List (SortedSet Nat))} {count p q i : Nat}
  {R R' : Nat → Nat → Prop}

/-- The sets put after the positions `1, …, count` so far have what `R` puts there.
Positions count from one and places from zero, which is settled here once. -/
structure Collects (count : Nat) (R : Nat → Nat → Prop)
    (after : Array (List (SortedSet Nat))) : Prop where
  size_eq : after.size = count
  mem_iff : ∀ i < count, ∀ q, (∃ set ∈ after.getD i [], q ∈ set) ↔ R (i + 1) q

theorem Collects.congr (h : Collects count R after) (hR : ∀ p q, R p q ↔ R' p q) :
    Collects count R' after :=
  ⟨h.size_eq, fun i hi q => (h.mem_iff i hi q).trans (hR _ q)⟩

/-- One more set is put after a position. The position is in range, so the entry is there;
the other entries stay as they are. -/
theorem Collects.extend (targets : SortedSet Nat) (h : Collects count R after) (hpos : 1 ≤ p)
    (hle : p ≤ count) :
    ∃ after', extend targets after p = .ok after' ∧
      Collects count (fun x q => R x q ∨ x = p ∧ q ∈ targets) after' := by
  obtain ⟨i, rfl⟩ := Nat.exists_eq_add_of_le' hpos
  refine ⟨after.modify i (targets :: ·), ?_, ?_, fun j hj q => ?_⟩
  · rw [FollowTable.extend, if_pos (by have := h.size_eq; omega)]
  · rw [Array.size_modify, h.size_eq]
  · -- the entry of `p` alone is another one
    have hget : (after.modify i (targets :: ·)).getD j [] =
        if i = j then targets :: after.getD j [] else after.getD j [] := by
      rw [Array.getD_eq_getD_getElem?, Array.getD_eq_getD_getElem?, Array.getElem?_modify,
        Array.getElem?_eq_getElem (h.size_eq.symm ▸ hj)]
      split <;> rfl
    rw [hget, ← h.mem_iff j hj q]
    by_cases hij : i = j
    · rw [if_pos hij, hij]
      simp [or_comm]
    · rw [if_neg hij]
      simp [Ne.symm hij]

/-- The targets of a link are put after its sources, one source after the other. All
sources are in range, so none of the steps is refused. -/
theorem Collects.addLink {l : Link} (h : Collects count R after)
    (hsources : ∀ p ∈ l.sources, 1 ≤ p ∧ p ≤ count) :
    ∃ after', addLink after l = .ok after' ∧
      Collects count (fun x q => R x q ∨ x ∈ l.sources ∧ q ∈ l.targets) after' := by
  have hstep : ∀ done p rest after, l.sources.toList = done ++ p :: rest →
      Collects count (fun x q => R x q ∨ x ∈ done ∧ q ∈ l.targets) after →
      ∃ after', FollowTable.extend l.targets after p = .ok after' ∧
        Collects count (fun x q => R x q ∨ x ∈ done ++ [p] ∧ q ∈ l.targets) after' := by
    intro done p rest after hl hdone
    have hp : p ∈ l.sources.toList := by simp [hl]
    obtain ⟨hpos, hle⟩ := hsources p hp
    obtain ⟨after', hrun, hcollects⟩ := hdone.extend l.targets hpos hle
    refine ⟨after', hrun, hcollects.congr fun x q => ?_⟩
    simp only [List.mem_append, List.mem_singleton, or_and_right, or_assoc]
  exact exists_foldlM_eq_ok hstep (h.congr (by simp))

/-- The table puts the targets of every link after its sources. Links come in the order of
nodes, but the entries do not depend on it. -/
theorem exists_ofLinks {links : List Link}
    (hlinks : ∀ l ∈ links, ∀ p ∈ l.sources, 1 ≤ p ∧ p ≤ count) :
    ∃ f, ofLinks count links = .ok f ∧ f.sets.size = count ∧
      ∀ p q, 1 ≤ p → p ≤ count → (q ∈ f.nexts p ↔ Linked links p q) := by
  -- the invariant: what the links so far put there
  have hstep : ∀ done l rest after, links = done ++ l :: rest →
      Collects count (Linked done) after →
      ∃ after', FollowTable.addLink after l = .ok after' ∧
        Collects count (Linked (done ++ [l])) after' := by
    intro done l rest after hl hdone
    obtain ⟨after', hrun, hcollects⟩ := hdone.addLink (l := l) (hlinks l (by simp [hl]))
    exact ⟨after', hrun, hcollects.congr fun x q => linked_concat_iff.symm⟩
  have hstart : Collects count (Linked []) (Array.replicate count []) := by
    refine ⟨Array.size_replicate, fun i hi q => ?_⟩
    simp [Linked, Array.getD_eq_getD_getElem?, hi]
  obtain ⟨after, hrun, hcollects⟩ := exists_foldlM_eq_ok hstep hstart
  refine ⟨⟨after.map .unions⟩, by rw [ofLinks, hrun]; rfl, ?_, fun p q hpos hle => ?_⟩
  · rw [Array.size_map, hcollects.size_eq]
  · obtain ⟨i, rfl⟩ := Nat.exists_eq_add_of_le' hpos
    have hi : i < after.size := by
      have := hcollects.size_eq
      omega
    rw [← hcollects.mem_iff i hle q, nexts, Nat.add_sub_cancel, Array.getD_eq_getD_getElem?,
      Array.getD_eq_getD_getElem?, Array.getElem?_map, Array.getElem?_eq_getElem hi]
    exact SortedSet.mem_unions

end FollowTable

-- ---------------------------------------------------------------------------
-- Links of a tree
-- ---------------------------------------------------------------------------

section Links

variable {t : ParseTree} {a : Annotations} {id base p q : Nat} {e l r : Expr (Letter × Nat)}
  {side : End}

/-- The node at place `id` puts `q` right after `p`. -/
def ParseTree.Joins (t : ParseTree) (id p q : Nat) : Prop :=
  match t.nodes[id]? with
  | some (.concat l r) => t.HasEnd .back l p ∧ t.HasEnd .front r q
  | some (.star _) => t.HasEnd .back id p ∧ t.HasEnd .front id q
  | _ => False

/-- Only a node joins anything. -/
theorem ParseTree.Joins.exists_node (h : t.Joins id p q) : ∃ node, t.nodes[id]? = some node := by
  cases hnode : t.nodes[id]? with
  | none =>
    rw [ParseTree.Joins, hnode] at h
    exact h.elim
  | some node => exact ⟨node, rfl⟩

/-- The link of a node leads from its ends to its beginnings: those of its two children at
a concatenation, its own at a repetition. Other nodes have none. -/
theorem exists_link (h : a.Exact t) (hfirst : t.ChildrenFirst) {node : Node}
    (hnode : t.nodes[id]? = some node) (hshuffle : node.isShuffle = false) :
    ∃ l?, a.link? (node, id) = .ok l? ∧
      (∀ l ∈ l?, ∀ p ∈ l.sources, ∃ id, t.HasEnd .back id p) ∧
      ∀ p q, (∃ l ∈ l?, p ∈ l.sources ∧ q ∈ l.targets) ↔ t.Joins id p q := by
  have hlt : id < t.nodes.length := (List.getElem?_eq_some_iff.mp hnode).1
  have hchild : ∀ child ∈ node.children, child < t.nodes.length := fun child hchild =>
    Nat.lt_trans (hfirst id node hnode child hchild) hlt
  cases node with
  | shuffle l r => exact nomatch hshuffle
  | epsilon | char c q | endMarker q | union l r =>
    refine ⟨none, rfl, nofun, fun p q => ?_⟩
    simp [ParseTree.Joins, hnode]
  -- the ends of the left child are joined to the beginnings of the right one
  | concat l r =>
    obtain ⟨sources, hsources, hmem⟩ := h.last_eq (hchild l (by simp [Node.children]))
    obtain ⟨targets, htargets, hmem'⟩ := h.first_eq (hchild r (by simp [Node.children]))
    refine ⟨some ⟨sources, targets⟩, by rw [Annotations.link?, hsources, htargets]; rfl, ?_, ?_⟩
    · rintro _ ⟨⟩ p hp
      exact ⟨l, (hmem p).mp hp⟩
    · intro p q
      simp [ParseTree.Joins, hnode, hmem, hmem']
  -- a repetition joins its own ends, as the next round may follow
  | star e =>
    obtain ⟨sources, hsources, hmem⟩ := h.last_eq hlt
    obtain ⟨targets, htargets, hmem'⟩ := h.first_eq hlt
    refine ⟨some ⟨sources, targets⟩, by rw [Annotations.link?, hsources, htargets]; rfl, ?_, ?_⟩
    · rintro _ ⟨⟩ p hp
      exact ⟨id, (hmem p).mp hp⟩
    · intro p q
      simp [ParseTree.Joins, hnode, hmem, hmem']

/-- The links of a tree without interleavings are what its nodes join. A link stands for
one node, and the collection of links is gone through without a fault, as every node has
its annotations. -/
theorem exists_links (h : a.Exact t) (hfirst : t.ChildrenFirst) (hshuffle : t.hasShuffle = false) :
    ∃ links, t.nodes.zipIdx.filterMapM a.link? = .ok links ∧
      (∀ l ∈ links, ∀ p ∈ l.sources, ∃ id, t.HasEnd .back id p) ∧
      ∀ p q, Linked links p q ↔ ∃ id, t.Joins id p q := by
  have hlink : ∀ x ∈ t.nodes.zipIdx, ∃ l?, a.link? x = .ok l? ∧
      (∀ l ∈ l?, ∀ p ∈ l.sources, ∃ id, t.HasEnd .back id p) ∧
      ∀ p q, (∃ l ∈ l?, p ∈ l.sources ∧ q ∈ l.targets) ↔ t.Joins x.2 p q := by
    rintro ⟨node, id⟩ hx
    have hnode : t.nodes[id]? = some node := List.mem_zipIdx_iff_getElem?.mp hx
    refine exists_link h hfirst hnode ?_
    rw [ParseTree.hasShuffle, List.any_eq_false] at hshuffle
    simpa using hshuffle node (List.mem_of_getElem? hnode)
  obtain ⟨links, hlinks, hmem⟩ :=
    exists_filterMapM_eq_ok fun x hx => (hlink x hx).imp fun _ => And.left
  -- a link is that of some node, and a node that joins anything has one
  refine ⟨links, hlinks, fun l hl p hp => ?_, fun p q => ?_⟩
  · obtain ⟨x, hx, hok⟩ := (hmem l).mp hl
    obtain ⟨l?, hok', hends, -⟩ := hlink x hx
    obtain rfl := Except.ok.inj (hok.symm.trans hok')
    exact hends l rfl p hp
  · constructor
    · rintro ⟨l, hl, hpq⟩
      obtain ⟨x, hx, hok⟩ := (hmem l).mp hl
      obtain ⟨l?, hok', -, hjoins⟩ := hlink x hx
      obtain rfl := Except.ok.inj (hok.symm.trans hok')
      exact ⟨x.2, (hjoins p q).mp ⟨l, rfl, hpq⟩⟩
    · rintro ⟨id, hid⟩
      obtain ⟨node, hnode⟩ := hid.exists_node
      have hx : (node, id) ∈ t.nodes.zipIdx := List.mem_zipIdx_iff_getElem?.mpr hnode
      obtain ⟨l?, hok, -, hjoins⟩ := hlink _ hx
      obtain ⟨l, hl, hpq⟩ := (hjoins p q).mpr hid
      exact ⟨l, (hmem l).mpr ⟨_, hx, hl ▸ hok⟩, hpq⟩

/-- Positions after one another are refused where something is interleaved: the node of
the interleaving is a fault. -/
theorem FollowTable.ofTree_ne_ok {f : FollowTable} (hshuffle : t.hasShuffle = true) :
    FollowTable.ofTree t a ≠ .ok f := by
  intro hrun
  obtain ⟨links, hlinks, -⟩ := bind_eq_ok.mp hrun
  obtain ⟨node, hnode, hisShuffle⟩ := List.any_eq_true.mp hshuffle
  obtain ⟨id, hid⟩ := List.getElem?_of_mem hnode
  have hmem : (node, id) ∈ t.nodes.zipIdx := List.mem_zipIdx_iff_getElem?.mpr hid
  obtain ⟨l?, hl?⟩ := exists_of_filterMapM_eq_ok hlinks hmem
  cases node with
  | shuffle l r => exact nomatch hl?
  | _ => exact nomatch hisShuffle

-- ---------------------------------------------------------------------------
-- Expressions in a tree
-- ---------------------------------------------------------------------------

theorem hasEnd_iff (h : Holds t.nodes base e) :
    t.HasEnd side (base + e.size - 1) p ↔ e.HasEnd side p := by
  simp only [ParseTree.HasEnd, ParseTree.Passes, nodeMatches_iff h, Expr.HasEnd, Expr.Passes]

/-- The last of some places, or one before it: where a node comes behind its operand. -/
theorem exists_place_succ_iff {m : Nat} {P : Nat → Prop} :
    (∃ id, base ≤ id ∧ id < base + (m + 1) ∧ P id) ↔
      (∃ id, base ≤ id ∧ id < base + m ∧ P id) ∨ P (base + (m + 1) - 1) := by
  constructor
  · rintro ⟨id, hle, hlt, hid⟩
    by_cases hbelow : id < base + m
    · exact .inl ⟨id, hle, hbelow, hid⟩
    · obtain rfl : id = base + (m + 1) - 1 := by omega
      exact .inr hid
  · rintro (⟨id, hle, hlt, hid⟩ | hid)
    · exact ⟨id, hle, by omega, hid⟩
    · exact ⟨_, by omega, by omega, hid⟩

/-- Some places, or those after them: where the nodes of two operands are listed in turn. -/
theorem exists_place_add_iff {m k : Nat} {P : Nat → Prop} :
    (∃ id, base ≤ id ∧ id < base + (m + k) ∧ P id) ↔
      (∃ id, base ≤ id ∧ id < base + m ∧ P id) ∨
      ∃ id, base + m ≤ id ∧ id < base + m + k ∧ P id := by
  constructor
  · rintro ⟨id, hle, hlt, hid⟩
    by_cases hleft : id < base + m
    · exact .inl ⟨id, hle, hleft, hid⟩
    · exact .inr ⟨id, by omega, by omega, hid⟩
  · rintro (⟨id, hle, hlt, hid⟩ | ⟨id, hle, hlt, hid⟩)
    · exact ⟨id, hle, by omega, hid⟩
    · exact ⟨id, by omega, by omega, hid⟩

/-- One place. -/
theorem exists_single_place_iff {P : Nat → Prop} :
    (∃ id, base ≤ id ∧ id < base + 1 ∧ P id) ↔ P base := by
  constructor
  · rintro ⟨id, hle, hlt, hid⟩
    obtain rfl : id = base := by omega
    exact hid
  · exact fun hid => ⟨base, by omega, by omega, hid⟩

/-- The nodes of an expression join what follows one another in its words, by induction on
the expression. The places of its nodes are those of the operands and one more; what is
joined there is what an operator adds to the neighbours in its operands. -/
theorem exists_joins_iff (h : Holds t.nodes base e) (hseq : e.Sequential) :
    (∃ id, base ≤ id ∧ id < base + e.size ∧ t.Joins id p q) ↔ e.Follows p q := by
  induction e generalizing base with
  | epsilon =>
    unfold Expr.size
    rw [exists_single_place_iff, ParseTree.Joins, h.single rfl]
    exact iff_of_false id Expr.not_follows_epsilon
  | leaf a =>
    obtain ⟨c | _, x⟩ := a <;>
    · unfold Expr.size
      rw [exists_single_place_iff, ParseTree.Joins, h.single rfl]
      exact iff_of_false id Expr.not_follows_leaf
  | concat l r ihl ihr =>
    obtain ⟨hl, hr, hnode⟩ := Holds.binary h
    unfold Expr.size
    rw [exists_place_succ_iff, exists_place_add_iff, ihl hl hseq.1, ihr hr hseq.2,
      ParseTree.Joins, hnode, Expr.follows_concat_iff, or_assoc]
    -- what the node on top joins are the ends of its operands
    dsimp only
    rw [hasEnd_iff hl, hasEnd_iff hr]
  | union l r ihl ihr =>
    obtain ⟨hl, hr, hnode⟩ := Holds.binary h
    unfold Expr.size
    rw [exists_place_succ_iff, exists_place_add_iff, ihl hl hseq.1, ihr hr hseq.2,
      ParseTree.Joins, hnode, Expr.follows_union_iff]
    exact or_iff_left id
  | shuffle l r => exact absurd hseq id
  | star e ih =>
    obtain ⟨he, hnode⟩ := h.star
    unfold Expr.size
    rw [exists_place_succ_iff, ih he hseq, ParseTree.Joins, hnode,
      Expr.follows_star_iff, ← hasEnd_iff h, ← hasEnd_iff h]
    rfl

/-- A node of the list interleaves exactly if an operator of the expression does, so it
can be seen from the list whether there are positions after one another. -/
theorem any_isShuffle_nodes_iff :
    (e.nodes base).any Node.isShuffle = false ↔ e.Sequential := by
  induction e generalizing base with
  | epsilon => simp [Expr.nodes, Node.isShuffle, Expr.Sequential]
  | leaf a => obtain ⟨c | _, x⟩ := a <;> simp [Expr.nodes, Node.isShuffle, Expr.Sequential]
  | concat l r ihl ihr | union l r ihl ihr | shuffle l r ihl ihr =>
    simp [Expr.nodes, Node.isShuffle, Expr.Sequential, List.any_append, ihl, ihr]
  | star e ih => simp [Expr.nodes, Node.isShuffle, Expr.Sequential, List.any_append, ih]

/-- The nodes of an expression have the numbers of its leaves, at whatever place the list
begins. -/
theorem mem_numbers_iff (base : Nat) :
    p ∈ e.numbers ↔ ∃ node ∈ e.nodes base, node.position? = some p := by
  unfold Expr.numbers
  simp only [List.mem_map, Expr.mem_leaves_iff base, Node.position?_eq,
    Option.map_eq_some_iff]
  constructor
  · rintro ⟨a, ⟨node, hnode, ha⟩, rfl⟩
    exact ⟨node, hnode, a, ha, rfl⟩
  · rintro ⟨node, hnode, a, ha, rfl⟩
    exact ⟨a, ⟨node, hnode, ha⟩, rfl⟩

theorem mem_numbers_of_mem_nodes {node : Node} (h : node ∈ e.nodes base)
    (hp : node.position? = some p) : p ∈ e.numbers :=
  (mem_numbers_iff base).mpr ⟨node, h, hp⟩

/-- What a node passes through are positions of leaves, by induction on the derivation. So
nothing that is looked up about a sequence is out of range. -/
theorem exists_mem_nodes_of_passes {w : List Nat} (h : t.Passes id w) :
    ∀ p ∈ w, ∃ node ∈ t.nodes, node.position? = some p := by
  induction h with
  | epsilon | starNil => exact fun p hp => absurd hp List.not_mem_nil
  | char hnode | endMarker hnode =>
    intro p hp
    rw [List.mem_singleton.mp hp]
    exact ⟨_, List.mem_of_getElem? hnode, rfl⟩
  | concat _ _ _ ihu ihv | starMore _ _ _ ihu ihv =>
    exact fun p hp => (List.mem_append.mp hp).elim (ihu p) (ihv p)
  | unionLeft _ _ ih | unionRight _ _ ih => exact ih
  | shuffle _ _ _ hw ihu ihv => exact fun p hp => (hw.mem_iff.mp hp).elim (ihu p) (ihv p)

end Links

-- ---------------------------------------------------------------------------
-- Trees of patterns
-- ---------------------------------------------------------------------------

namespace ParseTree

variable {pattern : String} {d : Dialect} {body : Expr Char} {side : End} {id p : Nat}
  {w : List Nat}

/-- In the tree of a pattern children come first. This is what its check found. -/
theorem childrenFirst_ofExpr : (ofExpr pattern d body).ChildrenFirst := by
  intro id node hnode child hchild
  have hnodes : checkNodes 0 1 (ofExpr pattern d body).nodes = .ok _ := checkNodes_ofExpr
  have hlt := lt_of_checkNodes hnodes hnode hchild
  omega

theorem root_ofExpr : (ofExpr pattern d body).root = 0 + body.marked.size - 1 := by
  unfold root
  rw [nodes_ofExpr, Expr.length_nodes, Nat.zero_add]

theorem passes_root_iff :
    (ofExpr pattern d body).Passes (ofExpr pattern d body).root w ↔ body.marked.Passes w := by
  unfold Passes
  rw [root_ofExpr, nodeMatches_iff holds_ofExpr, Expr.Passes]

theorem language_root_iff {word : List Char} :
    (ofExpr pattern d body).Language word ↔ body.marked.Matches (·.1.reads) word := by
  rw [Language, root_ofExpr, nodeMatches_iff holds_ofExpr]

theorem hasShuffle_ofExpr_iff :
    (ofExpr pattern d body).hasShuffle = false ↔ body.marked.Sequential := by
  unfold hasShuffle
  rw [nodes_ofExpr, any_isShuffle_nodes_iff]

/-- The positions are numbered from one, in the order of the leaves, the end marker coming
last. -/
theorem numbers_marked : body.marked.numbers = List.range' 1 (body.width + 1) := by
  unfold Expr.numbers
  rw [Expr.marked_eq_number, Expr.map_snd_leaves_number, Expr.width,
    Expr.width_map, Expr.width]

theorem nodup_numbers_marked : body.marked.numbers.Nodup := by
  rw [numbers_marked]
  exact List.nodup_range'

theorem mem_numbers_marked_iff :
    p ∈ body.marked.numbers ↔ 1 ≤ p ∧ p ≤ (ofExpr pattern d body).endPosition := by
  rw [numbers_marked, List.mem_range'_1, endPosition_ofExpr]
  omega

/-- The ends of every node are positions of the tree. -/
theorem HasEnd.mem_numbers (h : (ofExpr pattern d body).HasEnd side id p) :
    p ∈ body.marked.numbers := by
  obtain ⟨w, hw⟩ := h
  have hp : p ∈ side.attach p w := by cases side <;> simp [End.attach]
  obtain ⟨node, hnode, hposition⟩ := exists_mem_nodes_of_passes hw p hp
  rw [nodes_ofExpr] at hnode
  exact mem_numbers_of_mem_nodes hnode hposition

/-- The table of a pattern's tree is made, and it is right. What some node joins are
neighbours in a sequence of the tree, and in a tree without interleavings there are no
others. -/
theorem exists_followTable {a : Annotations} (h : a.Exact (ofExpr pattern d body))
    (hshuffle : (ofExpr pattern d body).hasShuffle = false) :
    ∃ f, FollowTable.ofTree (ofExpr pattern d body) a = .ok f ∧
      f.sets.size = (ofExpr pattern d body).endPosition ∧
      ∀ p ∈ body.marked.numbers, ∀ q, q ∈ f.nexts p ↔ body.marked.Follows p q := by
  obtain ⟨links, hlinks, hends, hjoins⟩ := exists_links h childrenFirst_ofExpr hshuffle
  -- an end of a node is a position, so it has an entry
  have hsources : ∀ l ∈ links, ∀ p ∈ l.sources,
      1 ≤ p ∧ p ≤ (ofExpr pattern d body).endPosition := by
    intro l hl p hp
    obtain ⟨id, hid⟩ := hends l hl p hp
    exact mem_numbers_marked_iff.mp hid.mem_numbers
  obtain ⟨f, hf, hsize, hmem⟩ := FollowTable.exists_ofLinks hsources
  refine ⟨f, by rw [FollowTable.ofTree, hlinks]; exact hf, hsize, fun p hp q => ?_⟩
  obtain ⟨hpos, hle⟩ := mem_numbers_marked_iff.mp hp
  -- what some node of the list joins, at a place within the expression
  rw [hmem p q hpos hle, hjoins,
    ← exists_joins_iff holds_ofExpr (hasShuffle_ofExpr_iff.mp hshuffle)]
  constructor
  · rintro ⟨id, hid⟩
    obtain ⟨node, hnode⟩ := hid.exists_node
    have hlt := (List.getElem?_eq_some_iff.mp hnode).1
    rw [nodes_ofExpr, Expr.length_nodes] at hlt
    exact ⟨id, Nat.zero_le id, by omega, hid⟩
  · rintro ⟨id, -, -, hid⟩
    exact ⟨id, hid⟩

end ParseTree

end PatternAutomata
