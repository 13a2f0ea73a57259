import PatternAutomata.Proofs.Automaton.Subset
import PatternAutomata.Proofs.Positions.Follow

/-!
# Pattern automata — the words of the position automaton

After a word the position automaton is at the set of the positions that can come
next in a word that begins so (`ComesAfter`). The table gives the next set from
the set before, and the end marker can come next exactly if the word is complete.

## Results

* `comesAfter_concat_iff`   — which positions can come after one more letter.
* `comesAfter_end_iff`      — the end can come after the words of the tree.
* `exists_positionAutomaton` — the automaton is made (`PositionSearch`), and accepts the words
  of the tree.
-/

namespace PatternAutomata

namespace ParseTree

variable {t : ParseTree} {pattern : String} {d : Dialect} {body : Expr Char} {c : Char}
  {w : List Char} {u : List Nat} {as : List (Letter × Nat)} {p q : Nat} {set : SortedSet Nat}

-- ---------------------------------------------------------------------------
-- What positions read
-- ---------------------------------------------------------------------------

/-- The positions of `u` read the letters of `w`. The end marker's position reads none, so
it is in no sequence that spells a word. -/
def Spells (t : ParseTree) (u : List Nat) (w : List Char) : Prop :=
  u.map (fun p => t.positions[p - 1]?) = w.map fun c => some (.char c)

theorem spells_nil_iff : t.Spells u [] ↔ u = [] := List.map_eq_nil_iff

/-- Positions are split where the word is, as each of them reads one letter. -/
theorem spells_append_iff {v : List Char} : t.Spells u (w ++ v) ↔
    ∃ x y, u = x ++ y ∧ t.Spells x w ∧ t.Spells y v := by
  constructor
  · intro h
    rw [Spells, List.map_append] at h
    exact List.map_eq_append_iff.mp h
  · rintro ⟨x, y, rfl, hx, hy⟩
    rw [Spells] at hx hy ⊢
    rw [List.map_append, List.map_append, hx, hy]

/-- One more letter is one more position, which reads that letter. -/
theorem spells_concat_iff : t.Spells u (w ++ [c]) ↔
    ∃ v p, u = v ++ [p] ∧ t.Spells v w ∧ t.positions[p - 1]? = some (.char c) := by
  constructor
  · intro h
    obtain ⟨v, rest, rfl, hv, hrest⟩ := spells_append_iff.mp h
    obtain ⟨p, tail, rfl, hp, htail⟩ := List.map_eq_cons_iff.mp hrest
    obtain rfl := List.map_eq_nil_iff.mp htail
    exact ⟨v, p, rfl, hv, hp⟩
  · rintro ⟨v, p, rfl, hv, hp⟩
    refine spells_append_iff.mpr ⟨v, [p], rfl, hv, ?_⟩
    rw [Spells, List.map_singleton, List.map_singleton, hp]

/-- Only literals of the pattern are read. -/
theorem mem_symbols_of_position (h : (ofExpr pattern d body).positions[p]? = some (.char c)) :
    c ∈ (ofExpr pattern d body).symbols := by
  have hmem : Letter.char c ∈ (ofExpr pattern d body).positions.toList :=
    Array.mem_toList_iff.mpr (Array.mem_of_getElem? h)
  rw [positions_ofExpr, letters_marked] at hmem
  rw [symbols_ofExpr, List.mem_eraseDups]
  simpa using hmem

/-- A position reads the letter of its leaf: the table of positions lists the leaves in
their order. -/
theorem position_of_mem_leaves {a : Letter} (h : (a, p) ∈ body.marked.leaves) :
    (ofExpr pattern d body).positions[p - 1]? = some a := by
  obtain ⟨i, hi⟩ := List.getElem?_of_mem h
  have hnumber : body.marked.numbers[i]? = some p := by
    unfold Expr.numbers
    rw [List.getElem?_map, hi]
    rfl
  rw [numbers_marked] at hnumber
  obtain ⟨hlt, hget⟩ := List.getElem?_eq_some_iff.mp hnumber
  rw [List.getElem_range'] at hget
  rw [show p - 1 = i by omega, ← Array.getElem?_toList, positions_ofExpr, List.getElem?_map, hi]
  rfl

/-- For positions of leaves it is the letters of the leaves that are read: the table of
positions says the same as the leaf itself. -/
theorem spells_map_iff (has : ∀ a ∈ as, a ∈ body.marked.leaves) :
    (ofExpr pattern d body).Spells (as.map (·.2)) w ↔ as.map (·.1) = w.map Letter.char := by
  have hletters : as.map (fun a => (ofExpr pattern d body).positions[a.2 - 1]?) =
      (as.map (·.1)).map some := by
    rw [List.map_map]
    exact List.map_congr_left fun a ha => position_of_mem_leaves (has a ha)
  have hword : w.map (fun c => some (Letter.char c)) = (w.map Letter.char).map some := by
    rw [List.map_map]
    rfl
  unfold Spells
  rw [List.map_map, hword]
  show as.map (fun a => (ofExpr pattern d body).positions[a.2 - 1]?) = _ ↔ _
  rw [hletters]
  exact List.map_inj_right fun _ _ => Option.some.inj

/-- The leaves of the pattern's expression, without the end marker. -/
def numberedBody (body : Expr Char) : Expr (Letter × Nat) := (body.map Letter.char).number 1

theorem marked_eq_concat :
    body.marked = .concat (numberedBody body) (.leaf (.endMarker, body.width + 1)) :=
  body.marked_eq

/-- A sequence of positions is one of the pattern's own with the end marker's behind it. -/
theorem passes_marked_iff : body.marked.Passes u ↔
    ∃ x, (numberedBody body).Passes x ∧ u = x ++ [body.width + 1] := by
  rw [marked_eq_concat, Expr.Passes, Expr.matches_concat_iff]
  simp only [Expr.matches_leaf_iff, exists_and_left, exists_eq_left, eq_comm (b := u)]
  rfl

/-- The end marker's position is nowhere but at the end, since no other leaf has it. What
comes before it is a sequence of the pattern without the end marker. -/
theorem passes_marked_end {v : List Nat} (h : body.marked.Passes (u ++ (body.width + 1) :: v)) :
    (numberedBody body).Passes u ∧ v = [] := by
  have hbelow : body.width + 1 ∉ (numberedBody body).numbers := by
    unfold Expr.numbers
    rw [numberedBody, Expr.map_snd_leaves_number, Expr.width_map, List.mem_range'_1]
    omega
  obtain ⟨x, hx, heq⟩ := passes_marked_iff.mp h
  rcases append_eq_append_cons heq.symm with ⟨y, rfl, -⟩ | ⟨y, rfl, hy⟩
  · exact absurd (hx.mem_numbers (by simp)) hbelow
  · cases y with
    | nil =>
      rw [List.append_nil]
      exact ⟨hx, (List.cons.inj hy).2.symm⟩
    | cons a y => exact absurd (congrArg List.length hy) (by simp)

/-- The words of a pattern are what its sequences of positions spell. Both are read off
the sequences of leaves, by their positions and by their letters. -/
theorem exists_spelled_iff : (∃ u, (numberedBody body).Passes u ∧
    (ofExpr pattern d body).Spells u w) ↔ body.Matches (fun c => [c]) w := by
  have hleaves : ∀ a ∈ (numberedBody body).leaves, a ∈ body.marked.leaves := by
    intro a ha
    rw [marked_eq_concat]
    exact List.mem_append_left _ ha
  -- positions stand for leaves, and leaves that spell the word have its letters
  have hspelled : (∃ u, (numberedBody body).Passes u ∧ (ofExpr pattern d body).Spells u w) ↔
      ∃ as, (numberedBody body).Matches (fun a => [a]) as ∧ as.map (·.1) = w.map Letter.char := by
    constructor
    · rintro ⟨u, hu, hw⟩
      obtain ⟨as, has, rfl⟩ := Expr.matches_iff_exists_leaves.mp hu
      exact ⟨as, has, (spells_map_iff fun a ha => hleaves a (has.mem_leaves a ha)).mp hw⟩
    · rintro ⟨as, has, hw⟩
      exact ⟨as.map Prod.snd, has.map Prod.snd,
        (spells_map_iff fun a ha => hleaves a (has.mem_leaves a ha)).mpr hw⟩
  rw [hspelled, ← Expr.matches_iff_exists_leaves]
  -- without numbers and signs, the leaves are the characters of the pattern
  have hletters : (numberedBody body).Matches (fun a => [a.1]) (w.map Letter.char) ↔
      ((numberedBody body).map (·.1)).Matches (fun a => [a]) (w.map Letter.char) := by
    rw [Expr.matches_map_iff]
  rw [hletters, numberedBody, Expr.map_fst_number, Expr.matches_map_iff,
    Expr.matches_iff_exists_leaves]
  constructor
  · rintro ⟨cs, hcs, heq⟩
    rwa [← (List.map_inj_right fun _ _ => Letter.char.inj).mp heq]
  · exact fun h => ⟨w, h, rfl⟩

-- ---------------------------------------------------------------------------
-- Positions that can come next
-- ---------------------------------------------------------------------------

/-- Position `q` can come next after `w`: some sequence of the tree has it behind
positions that spell `w`. -/
def ComesAfter (t : ParseTree) (w : List Char) (q : Nat) : Prop :=
  ∃ u v, t.Passes t.root (u ++ q :: v) ∧ t.Spells u w

/-- At the start a position can come next if it can be first. -/
theorem comesAfter_nil_iff : t.ComesAfter [] q ↔ t.HasEnd .front t.root q := by
  constructor
  · rintro ⟨u, v, h, hu⟩
    obtain rfl := spells_nil_iff.mp hu
    exact ⟨v, h⟩
  · rintro ⟨v, h⟩
    exact ⟨[], v, h, spells_nil_iff.mpr rfl⟩

theorem ComesAfter.mem_numbers (h : (ofExpr pattern d body).ComesAfter w q) :
    q ∈ body.marked.numbers := by
  obtain ⟨u, v, hpasses, -⟩ := h
  exact (passes_root_iff.mp hpasses).mem_numbers (by simp)

/-- After one more letter `c`, what follows the positions that could come next and read
`c`. That it is enough to look at the last position holds without interleavings only:
there, what may come behind a position does not depend on what led to it. -/
theorem comesAfter_concat_iff (hshuffle : (ofExpr pattern d body).hasShuffle = false) :
    (ofExpr pattern d body).ComesAfter (w ++ [c]) q ↔
      ∃ p, (ofExpr pattern d body).ComesAfter w p ∧
        (ofExpr pattern d body).positions[p - 1]? = some (.char c) ∧ body.marked.Follows p q := by
  constructor
  · rintro ⟨u, v, h, hu⟩
    obtain ⟨x, p, rfl, hx, hp⟩ := spells_concat_iff.mp hu
    rw [List.append_assoc] at h
    exact ⟨p, ⟨x, q :: v, h, hx⟩, hp, x, v, passes_root_iff.mp h⟩
  · rintro ⟨p, ⟨u, v, h, hu⟩, hp, x, y, hfollows⟩
    -- the word that leads to `p` goes on as the one that has `q` after `p`
    have hcrossed := Expr.exchange (hasShuffle_ofExpr_iff.mp hshuffle) nodup_numbers_marked
      (passes_root_iff.mp h) hfollows
    refine ⟨u ++ [p], y, passes_root_iff.mpr ?_, spells_concat_iff.mpr ⟨u, p, rfl, hu, hp⟩⟩
    rwa [List.append_assoc]

/-- The end can come exactly after the words of the tree. This is why the states with the
end marker's position are the final ones. -/
theorem comesAfter_end_iff :
    (ofExpr pattern d body).ComesAfter w (ofExpr pattern d body).endPosition ↔
      (ofExpr pattern d body).Language w := by
  rw [language_ofExpr, ← exists_spelled_iff, endPosition_ofExpr]
  constructor
  · rintro ⟨u, v, h, hu⟩
    obtain ⟨hx, -⟩ := passes_marked_end (passes_root_iff.mp h)
    exact ⟨u, hx, hu⟩
  · rintro ⟨x, hx, hw⟩
    exact ⟨x, [], passes_root_iff.mpr (passes_marked_iff.mpr ⟨x, hx, rfl⟩), hw⟩

-- ---------------------------------------------------------------------------
-- The position automaton
-- ---------------------------------------------------------------------------

/-- The next set is what the table has for those of the set that read the letter. The
table is read beyond its end too here; that no set holds such a position is shown
elsewhere. -/
theorem mem_nextsOn {f : FollowTable} : q ∈ f.nextsOn t set c ↔
    ∃ p ∈ set, t.positions[p - 1]? = some (.char c) ∧ q ∈ f.nexts p := by
  simp only [FollowTable.nextsOn, SortedSet.mem_unions, List.mem_map, List.mem_filter,
    SortedSet.mem_toList, decide_eq_true_eq]
  constructor
  · rintro ⟨_, ⟨p, ⟨hp, hc⟩, rfl⟩, hq⟩
    exact ⟨p, hp, hc, hq⟩
  · rintro ⟨p, hp, hc, hq⟩
    exact ⟨_, ⟨p, ⟨hp, hc⟩, rfl⟩, hq⟩

/-- The search is not refused if the table has an entry for every position of every set.
What is visited then is each set with its moves, in the order in which the sets were
found. -/
theorem checkedVisits_eq {t : ParseTree} {f : FollowTable} {start : SortedSet Nat}
    (h : ∀ set ∈ f.reachedSets t start, ∀ p ∈ set, 1 ≤ p ∧ p ≤ f.length) :
    f.checkedVisits t start =
      .ok ((f.reachedSets t start).map fun set => (set, f.moves t set)) := by
  have hcovers : (f.setVisits t start).all (fun visit => f.covers visit.1) = true := by
    rw [FollowTable.setVisits_eq, List.all_map, List.all_eq_true]
    intro set hset
    refine List.all_eq_true.mpr fun p hp => ?_
    simpa using h set hset p hp
  unfold FollowTable.checkedVisits
  dsimp only
  rw [if_pos hcovers, FollowTable.setVisits_eq]

/-- From the empty set and by a letter that is no literal nothing is reached, so the
search leaves nothing out. -/
theorem leadsBy_nextsOn {f : FollowTable} : Dfa.LeadsBy (ofExpr pattern d body).symbols
    (f.nextsOn (ofExpr pattern d body)) where
  next_empty c := SortedSet.ext fun q => by simp [mem_nextsOn]
  next_other x c hc := SortedSet.ext fun q => by
    refine ⟨fun hq => ?_, fun hq => absurd hq SortedSet.not_mem_empty⟩
    obtain ⟨p, -, hp, -⟩ := mem_nextsOn.mp hq
    exact absurd (mem_symbols_of_position hp) hc

/-- Letter by letter, the set after a word has the positions that can come next. The
induction is on the word, from any word that was read before. -/
theorem mem_foldl_nextsOn {f : FollowTable} {w₀ : List Char}
    (hshuffle : (ofExpr pattern d body).hasShuffle = false)
    (hf : ∀ p ∈ body.marked.numbers, ∀ q, q ∈ f.nexts p ↔ body.marked.Follows p q)
    (hset : ∀ q, q ∈ set ↔ (ofExpr pattern d body).ComesAfter w₀ q) :
    q ∈ w.foldl (f.nextsOn (ofExpr pattern d body)) set ↔
      (ofExpr pattern d body).ComesAfter (w₀ ++ w) q := by
  induction w generalizing set w₀ with
  | nil => rw [List.append_nil, List.foldl_nil, hset]
  | cons c w ih =>
    rw [List.foldl_cons, List.append_cons]
    refine ih fun q => ?_
    -- one letter further both sides go on from the positions that read it
    rw [mem_nextsOn, comesAfter_concat_iff hshuffle]
    constructor
    · rintro ⟨p, hp, hc, hq⟩
      have hafter := (hset p).mp hp
      exact ⟨p, hafter, hc, (hf p hafter.mem_numbers q).mp hq⟩
    · rintro ⟨p, hafter, hc, hq⟩
      exact ⟨p, (hset p).mpr hafter, hc, (hf p hafter.mem_numbers q).mpr hq⟩

/-- Sets of positions are told apart by their labels, and each position in them has a
letter. -/
theorem tellsApart_positions {xs : List (SortedSet Nat)}
    (h : ∀ set ∈ xs, ∀ p ∈ set, p ∈ body.marked.numbers) :
    Dfa.TellsApart (ofExpr pattern d body).positionsNaming positionsLabel xs where
  label set hset := by
    have hpositions : (ofExpr pattern d body).hasPositions set = true := by
      unfold hasPositions
      rw [List.all_eq_true]
      intro p hp
      simpa using mem_numbers_marked_iff.mp (h set hset p hp)
    exact if_pos hpositions
  name_inj _ _ _ _ := positionsLabel_inj
  isFinal_empty := by simp [positionsNaming]

/-- There is a root among the nodes, so what is known of every node is known of it. -/
theorem root_lt_length : (ofExpr pattern d body).root < (ofExpr pattern d body).nodes.length := by
  have hpos := body.marked.size_pos
  rw [root_ofExpr, nodes_ofExpr, Expr.length_nodes]
  omega

/-- The construction goes through four stages. If none of the first three is refused, it comes
down to the last one, which makes the automaton of what the search has visited. -/
theorem positionAutomaton_eq {t : ParseTree} {a : Annotations} {f : FollowTable}
    {start : SortedSet Nat} {visits : List (SortedSet Nat × List (Char × SortedSet Nat))}
    (ha : Annotations.ofTree t = .ok a) (hf : FollowTable.ofTree t a = .ok f)
    (hstart : a.first t.root = .ok start) (hvisits : f.checkedVisits t start = .ok visits) :
    t.positionAutomaton = Dfa.ofElements (.ofList t.symbols) t.positionsNaming visits := by
  unfold positionAutomaton
  rw [ha, ok_bind, hf, ok_bind, hstart, ok_bind, hvisits, ok_bind]

/-- What the position automaton of a tree is made of: the table of next positions, and the
search from the positions that can be first. After a word, the search is at the set of the
positions that can come next. All that is held is in range, which is what the construction
asserts as it goes. -/
structure PositionSearch (t : ParseTree) (a : Annotations) (f : FollowTable)
    (start : SortedSet Nat) (dfa : Dfa) : Prop where
  annotations : Annotations.ofTree t = .ok a
  exact : a.Exact t
  follow : FollowTable.ofTree t a = .ok f
  first : a.first t.root = .ok start
  length_eq : f.length = t.endPosition
  in_range : ∀ set ∈ f.reachedSets t start, ∀ p ∈ set, 1 ≤ p ∧ p ≤ t.endPosition
  proper : Dfa.Proper t.positionsNaming positionsLabel (f.moves t) (.ofList t.symbols)
    (f.reachedSets t start)
  search : Dfa.IsSearch t.positionsNaming positionsLabel (f.moves t) (.ofList t.symbols)
    (f.reachedSets t start) dfa
  after : ∀ w q, q ∈ w.foldl (f.nextsOn t) start ↔ t.ComesAfter w q

/-- The table has an entry for every position that is held, so the search is not refused. -/
theorem PositionSearch.visits_eq {t : ParseTree} {a : Annotations} {f : FollowTable}
    {start : SortedSet Nat} {dfa : Dfa} (h : PositionSearch t a f start dfa) :
    f.checkedVisits t start =
      .ok ((f.reachedSets t start).map fun set => (set, f.moves t set)) :=
  checkedVisits_eq fun set hset p hp => h.length_eq ▸ h.in_range set hset p hp

/-- The position automaton of a pattern is made, and accepts the words of the tree.
Nothing is assumed but that no interleaving is in it: the annotations, the table and every
set are shown to be there. -/
theorem exists_positionAutomaton (hshuffle : (ofExpr pattern d body).hasShuffle = false) :
    ∃ a f first dfa, (ofExpr pattern d body).positionAutomaton = .ok dfa ∧
      PositionSearch (ofExpr pattern d body) a f first dfa ∧
      ∀ word, ∃ b, dfa.accepts word = .ok b ∧
        (b = true ↔ (ofExpr pattern d body).Language word.toList) := by
  obtain ⟨a, ha, hexact⟩ := Annotations.exists_annotations childrenFirst_ofExpr
    (t := ofExpr pattern d body)
  obtain ⟨f, hf, hsize, hfollows⟩ := exists_followTable hexact hshuffle
  obtain ⟨first, hfirst, hmem⟩ := hexact.first_eq root_lt_length
  have hafter : ∀ w q, q ∈ w.foldl (f.nextsOn (ofExpr pattern d body)) first ↔
      (ofExpr pattern d body).ComesAfter w q := fun w q =>
    mem_foldl_nextsOn hshuffle hfollows fun q => (hmem q).trans comesAfter_nil_iff.symm
  -- each set that is reached belongs to a word, so its positions come next after that
  have hnumbers : ∀ set ∈ f.reachedSets (ofExpr pattern d body) first, ∀ p ∈ set,
      p ∈ body.marked.numbers := by
    intro set hset p hp
    obtain ⟨w, rfl⟩ := Dfa.exists_word_of_mem_explore hset
    exact ((hafter w p).mp hp).mem_numbers
  have hrange : ∀ set ∈ f.reachedSets (ofExpr pattern d body) first, ∀ p ∈ set,
      1 ≤ p ∧ p ≤ (ofExpr pattern d body).endPosition := fun set hset p hp =>
    mem_numbers_marked_iff.mp (hnumbers set hset p hp)
  have htells : Dfa.TellsApart (ofExpr pattern d body).positionsNaming positionsLabel
      (f.reachedSets (ofExpr pattern d body) first) := tellsApart_positions hnumbers
  have hletters : ∀ c ∈ (ofExpr pattern d body).symbols,
      c ∈ SortedSet.ofList (ofExpr pattern d body).symbols := fun c hc =>
    SortedSet.mem_ofList.mpr hc
  obtain ⟨dfa, hdfa, hsearch, haccepts⟩ :=
    Dfa.exists_setAutomaton htells hletters leadsBy_nextsOn
  refine ⟨a, f, first, dfa, ?_, {
    annotations := ha
    exact := hexact
    follow := hf
    first := hfirst
    length_eq := hsize
    in_range := hrange
    proper := htells.proper hletters
    search := hsearch
    after := hafter }, fun word => ⟨_, haccepts word, ?_⟩⟩
  · have hlength : f.length = (ofExpr pattern d body).endPosition := hsize
    have hvisits := checkedVisits_eq fun set hset p hp => hlength ▸ hrange set hset p hp
    exact (positionAutomaton_eq ha hf hfirst hvisits).trans hdfa
  · rw [← comesAfter_end_iff, ← hafter]
    exact decide_eq_true_iff

end ParseTree

end PatternAutomata
