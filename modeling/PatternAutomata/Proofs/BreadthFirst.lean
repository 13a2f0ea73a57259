import Mathlib.Data.List.Forall2
import Mathlib.Data.List.Induction
import Mathlib.Data.List.Nodup
import Mathlib.Data.List.Shortlex
import PatternAutomata.Exploration

/-!
# Pattern automata — the order of a search

A search lists elements in the order in which it meets them. Where its steps carry
letters, that order can be said without a queue: each element has a least word
among those that lead to it, a shorter one being less than a longer one and words
of the same length being compared letter by letter, and the elements stand in the
order of these words (`InWordOrder`).

While the search is on its way, every element that it met is kept with the word by
which it was met first (`Frontier.ByWord`). All that was mentioned so far, the
start and the targets of the visits, stands in the order of words, and the elements
met are a part of that: the first mention of each.

## Results

* `explore_inWordOrder`  — a search lists its elements by the least words that lead to them.
* `explore_inPlaceOrder` — without letters, the places of targets make the words.
-/

namespace PatternAutomata

variable {α σ : Type} [LinearOrder σ]

-- ---------------------------------------------------------------------------
-- Words
-- ---------------------------------------------------------------------------

/-- Words of one length that differ before their end differ so whatever is behind them. -/
theorem lex_append {u v : List σ} (h : List.Lex (· < ·) u v) (hlength : u.length = v.length)
    (s t : List σ) : List.Lex (· < ·) (u ++ s) (v ++ t) := by
  induction h with
  | nil => exact nomatch hlength
  | cons _ ih => exact .cons (ih (Nat.succ.inj hlength))
  | rel hlt => exact .rel hlt

/-- One more letter at the end of each keeps words in order. -/
theorem shortlex_concat {u v : List σ} (h : List.Shortlex (· < ·) u v) (c e : σ) :
    List.Shortlex (· < ·) (u ++ [c]) (v ++ [e]) := by
  rcases List.shortlex_def.mp h with hlt | ⟨hlength, hlex⟩
  · exact .of_length_lt (by simpa using hlt)
  · exact .of_lex (by simpa using hlength) (lex_append hlex hlength [c] [e])

/-- The order of words is transitive: shorter words come first, and words of one length
are compared letter by letter. -/
theorem shortlex_trans {u v w : List σ} (huv : List.Shortlex (· < ·) u v)
    (hvw : List.Shortlex (· < ·) v w) : List.Shortlex (· < ·) u w := by
  rcases List.shortlex_def.mp huv with huv | ⟨huv, hlex⟩ <;>
    rcases List.shortlex_def.mp hvw with hvw | ⟨hvw, hlex'⟩
  · exact .of_length_lt (huv.trans hvw)
  · exact .of_length_lt (hvw ▸ huv)
  · exact .of_length_lt (huv ▸ hvw)
  · exact .of_lex (huv.trans hvw) (List.lt_trans hlex hlex')

/-- `word` leads to `x`, and no word before it does. -/
def IsLeastWord (Leads : List σ → α → Prop) (x : α) (word : List σ) : Prop :=
  Leads word x ∧ ∀ v, Leads v x → word = v ∨ List.Shortlex (· < ·) word v

/-- The elements stand in the order of the least words that lead to them. No queue is
spoken of, so the order can be stated of an automaton alone. -/
def InWordOrder (Leads : List σ → α → Prop) (xs : List α) : Prop :=
  ∃ words : List (List σ), words.Pairwise (List.Shortlex (· < ·)) ∧
    List.Forall₂ (IsLeastWord Leads) xs words

/-- Moves lead from `first` to an element, and their letters are the word. There may be
many walks to an element; the search has found it by the least of their words. -/
inductive Walk (moves : α → List (σ × α)) (first : α) : List σ → α → Prop
  | nil : Walk moves first [] first
  | concat {w : List σ} {c : σ} {x y : α} :
      Walk moves first w x → (c, y) ∈ moves x → Walk moves first (w ++ [c]) y

/-- The order depends only on which words lead to the elements that are listed. So it may
be said of walks, of runs or of held sets, whichever is at hand. -/
theorem InWordOrder.congr {Leads Leads' : List σ → α → Prop} {xs : List α}
    (h : InWordOrder Leads xs) (hleads : ∀ w, ∀ x ∈ xs, Leads w x ↔ Leads' w x) :
    InWordOrder Leads' xs := by
  obtain ⟨words, hsorted, hwords⟩ := h
  refine ⟨words, hsorted, List.forall₂_iff_get.mpr ⟨hwords.length_eq, ?_⟩⟩
  intro i hi hi'
  obtain ⟨hlead, hleast⟩ := hwords.get hi hi'
  have hmem : xs.get ⟨i, hi⟩ ∈ xs := List.get_mem xs ⟨i, hi⟩
  exact ⟨(hleads _ _ hmem).mp hlead, fun v hv => hleast v ((hleads _ _ hmem).mpr hv)⟩

omit [LinearOrder σ] in
/-- Walks lead to what a search of the targets reaches. The letters say no more than by
which way. -/
theorem reaches_iff_exists_walk {moves : α → List (σ × α)} {next : α → List α} {first x : α}
    (hnext : ∀ x, next x = (moves x).map (·.2)) :
    Reaches next first x ↔ ∃ w, Walk moves first w x := by
  constructor
  · intro h
    induction h with
    | refl => exact ⟨[], .nil⟩
    | @step y z _ hz ih =>
      obtain ⟨w, hw⟩ := ih
      rw [hnext] at hz
      obtain ⟨⟨c, _⟩, hm, rfl⟩ := List.mem_map.mp hz
      exact ⟨w ++ [c], hw.concat hm⟩
  · rintro ⟨w, hw⟩
    induction hw with
    | nil => exact .refl
    | concat _ hm ih => exact .step ih (hnext _ ▸ List.mem_map_of_mem hm)

-- ---------------------------------------------------------------------------
-- What was mentioned
-- ---------------------------------------------------------------------------

/-- The targets of an element that a word leads to, with the words that lead there. -/
def extensions (moves : α → List (σ × α)) (p : List σ × α) : List (List σ × α) :=
  (moves p.2).map fun m => (p.1 ++ [m.1], m.2)

/-- The start and the targets of the elements visited, in this order. -/
def mentions (moves : α → List (σ × α)) (first : α) (visited : List (List σ × α)) :
    List (List σ × α) :=
  ([], first) :: visited.flatMap (extensions moves)

/-- The words of the elements are in order. -/
abbrev WordsSorted (l : List (List σ × α)) : Prop :=
  l.Pairwise fun p q => List.Shortlex (· < ·) p.1 q.1

section Mentions

variable {moves : α → List (σ × α)} {first : α} {visited : List (List σ × α)}
  (hmoves : ∀ x, ((moves x).map (·.1)).Pairwise (· < ·))

include hmoves

theorem sorted_extensions (p : List σ × α) : WordsSorted (extensions moves p) := by
  refine List.pairwise_map.mpr ((List.pairwise_map.mp (hmoves p.2)).imp ?_)
  intro m m' hlt
  exact .append_left ((List.shortlex_singleton_iff _ _).mpr hlt) p.1

/-- What elements mention is in order if they are. The start has the shortest word of all,
and the words of different elements stay in order with a letter behind them. -/
theorem sorted_mentions (h : WordsSorted visited) : WordsSorted (mentions moves first visited) := by
  refine List.pairwise_cons.mpr ⟨?_, ?_⟩
  · intro q hq
    obtain ⟨p, -, hq⟩ := List.mem_flatMap.mp hq
    obtain ⟨m, -, rfl⟩ := List.mem_map.mp hq
    exact .of_length_lt (by simp)
  · refine List.pairwise_flatMap.mpr ⟨fun p _ => sorted_extensions hmoves p, h.imp ?_⟩
    intro p q hpq x hx y hy
    obtain ⟨m, -, rfl⟩ := List.mem_map.mp hx
    obtain ⟨m', -, rfl⟩ := List.mem_map.mp hy
    exact shortlex_concat hpq m.1 m'.1

end Mentions

-- ---------------------------------------------------------------------------
-- The search
-- ---------------------------------------------------------------------------

/-- One of the elements of `met` is that of `p`, and its word is not behind that of `p`. -/
def Covered (met : List (List σ × α)) (p : List σ × α) : Prop :=
  ∃ q ∈ met, q.2 = p.2 ∧ (q.1 = p.1 ∨ List.Shortlex (· < ·) q.1 p.1)

namespace Frontier

variable [Keyed α] {moves : α → List (σ × α)} {first : α} {f : Frontier α (List α)}
  {met ps : List (List σ × α)}

/-- An element was found before, or is found last. -/
theorem toList_found_push {ρ : Type} (f : Frontier α ρ) (y : α) :
    y ∈ f.found ∧ (f.push y).found.toList = f.found.toList ∨
      (f.push y).found.toList = f.found.toList ++ [y] := by
  unfold push
  split
  · rename_i h
    exact .inl ⟨(f.mem_keys_iff y).mp (Std.TreeSet.contains_iff_mem.mp h), rfl⟩
  · exact .inr Array.toList_push

/-- Of elements whose words are in order and behind all others, those that were not met
before are met by their words. For each of the others there is one that was met by a
lesser word. -/
theorem exists_pushAll (hfound : f.found.toList = met.map (·.2))
    (hsorted : WordsSorted (met ++ ps)) :
    ∃ new, new.Sublist ps ∧
      (f.pushAll (ps.map (·.2))).found.toList = (met ++ new).map (·.2) ∧
      ∀ p ∈ ps, Covered (met ++ new) p := by
  induction ps generalizing f met with
  | nil => exact ⟨[], .slnil, by simpa [pushAll] using hfound, nofun⟩
  | cons p ps ih =>
    have hassoc : met ++ p :: ps = met ++ [p] ++ ps := by simp
    rcases toList_found_push f p.2 with ⟨hmem, hpush⟩ | hpush
    · -- met before: its word is passed over, since an earlier one is kept
      have hrest : WordsSorted (met ++ ps) :=
        hsorted.sublist ((List.sublist_cons_self p ps).append_left met)
      obtain ⟨new, hnew, hall, hcovered⟩ := ih (hpush.trans hfound) hrest
      obtain ⟨q, hq, hqp⟩ : ∃ q ∈ met, q.2 = p.2 := by
        rwa [← Array.mem_toList_iff, hfound, List.mem_map] at hmem
      refine ⟨new, hnew.cons p, hall, ?_⟩
      intro p' hp'
      rcases List.mem_cons.mp hp' with rfl | hp'
      · exact ⟨q, List.mem_append_left _ hq, hqp,
          .inr ((List.pairwise_append.mp hsorted).2.2 q hq p' List.mem_cons_self)⟩
      · exact hcovered p' hp'
    · -- new: it is met by this word, which is behind all others
      have hfound' : (f.push p.2).found.toList = (met ++ [p]).map (·.2) := by
        simp [hpush, hfound]
      obtain ⟨new, hnew, hall, hcovered⟩ := ih hfound' (hassoc ▸ hsorted)
      have hassoc' : met ++ [p] ++ new = met ++ p :: new := by simp
      rw [hassoc'] at hall hcovered
      refine ⟨p :: new, hnew.cons_cons p, hall, ?_⟩
      intro p' hp'
      rcases List.mem_cons.mp hp' with rfl | hp'
      · exact ⟨p', by simp, rfl, .inl rfl⟩
      · exact hcovered p' hp'

/-- The elements met, each with the word by which it was met first: they are a part of what was
mentioned so far, and everything mentioned is an element that was met by a word not behind. -/
structure ByWord (moves : α → List (σ × α)) (first : α) (f : Frontier α (List α))
    (met : List (List σ × α)) : Prop where
  found : f.found.toList = met.map (·.2)
  sorted : WordsSorted met
  sublist : met.Sublist (mentions moves first (met.take f.steps.size))
  covered : ∀ p ∈ mentions moves first (met.take f.steps.size), Covered met p

/-- At the start only the first element was met, by the empty word, which comes before all
others. -/
theorem byWord_start (moves : α → List (σ × α)) (first : α) :
    (pushAll {} [first] : Frontier α (List α)).ByWord moves first [([], first)] where
  found := by simp [pushAll, push]
  sorted := by simp
  sublist := by simp [mentions]
  covered p hp := by
    obtain rfl : p = ([], first) := by simpa [mentions] using hp
    exact ⟨_, List.mem_singleton_self _, rfl, .inl rfl⟩

variable {next : α → List α} (hnext : ∀ x, next x = (moves x).map (·.2))
  (hmoves : ∀ x, ((moves x).map (·.1)).Pairwise (· < ·))

include hnext hmoves

/-- A visit adds the extensions of the word of the element that is visited. They stand
behind all that was mentioned before, since the elements are visited in the order of their
words. -/
theorem ByWord.visit (hf : f.ByWord moves first met) (h : f.steps.size < f.found.size) :
    ∃ met', (f.visit next id h).ByWord moves first met' := by
  have hlength : f.found.size = met.length := by
    rw [← Array.length_toList, hf.found, List.length_map]
  have hlt : f.steps.size < met.length := hlength ▸ h
  let p := met[f.steps.size]
  have hp : f.found[f.steps.size] = p.2 := by
    simp only [p, ← Array.getElem_toList, hf.found, List.getElem_map]
  have htake : met.take (f.steps.size + 1) = met.take f.steps.size ++ [p] :=
    List.take_succ_eq_append_getElem hlt
  have hmentions : mentions moves first (met.take (f.steps.size + 1)) =
      mentions moves first (met.take f.steps.size) ++ extensions moves p := by
    rw [htake, mentions, List.flatMap_append]
    simp [mentions]
  -- what was mentioned is in order, and so is its part that was met
  have hsorted : WordsSorted (met ++ extensions moves p) := by
    refine (sorted_mentions hmoves (hf.sorted.sublist (List.take_sublist (f.steps.size + 1) met))
      ).sublist (hmentions ▸ hf.sublist.append_right _)
  have htargets : next f.found[f.steps.size] = (extensions moves p).map (·.2) := by
    rw [hnext, hp]
    simp [extensions]
  obtain ⟨new, hnew, hfound, hcovered⟩ := exists_pushAll
    (f := { f with steps := f.steps.push (next f.found[f.steps.size]) }) hf.found hsorted
  have hstays : (met ++ new).take (f.steps.size + 1) = met.take (f.steps.size + 1) :=
    List.take_append_of_le_length hlt
  refine ⟨met ++ new, {
    found := by
      rw [← htargets] at hfound
      exact hfound
    sorted := hsorted.sublist (hnew.append_left met)
    sublist := ?_
    covered := ?_ }⟩
  · rw [steps_visit, Array.size_push, hstays, hmentions]
    exact hf.sublist.append hnew
  · intro q hq
    rw [steps_visit, Array.size_push, hstays, hmentions] at hq
    rcases List.mem_append.mp hq with hq | hq
    · obtain ⟨q', hq', hle⟩ := hf.covered q hq
      exact ⟨q', List.mem_append_left _ hq', hle⟩
    · exact hcovered q hq

/-- So it is for the whole search, visit by visit. Each visit adds the words that are one
letter longer than that of the element visited, and these come after all words so far. -/
theorem ByWord.run (fin : FiniteRange next) (hf : f.ByWord moves first met) :
    ∃ met', (f.run next id fin fun _ => false).ByWord moves first met' := by
  fun_induction Frontier.run next id fin (fun _ => false) f generalizing met with
  | case1 f h hstop => exact absurd hstop Bool.false_ne_true
  | case2 f h hstop ih =>
    obtain ⟨met', hmet'⟩ := hf.visit hnext hmoves h
    exact ih hmet'
  | case3 f h => exact ⟨met, hf⟩

end Frontier

-- ---------------------------------------------------------------------------
-- The order of a search
-- ---------------------------------------------------------------------------

section Order

variable {moves : α → List (σ × α)} {first x : α} {met : List (List σ × α)} {w : List σ}

omit [LinearOrder σ] in
/-- Where everything that is met is mentioned by what is met, its words are walks. The
induction is on the word, from its end: the element that has mentioned it was met by the
word without its last letter. -/
theorem walk_of_mem (h : ∀ p ∈ met, p ∈ mentions moves first met) (hp : (w, x) ∈ met) :
    Walk moves first w x := by
  induction w using List.reverseRecOn generalizing x with
  | nil =>
    rcases List.mem_cons.mp (h _ hp) with hfirst | hext
    · obtain ⟨-, rfl⟩ := Prod.mk.inj hfirst
      exact .nil
    · obtain ⟨q, -, hq⟩ := List.mem_flatMap.mp hext
      obtain ⟨m, -, hm⟩ := List.mem_map.mp hq
      simp at hm
  -- the element that has mentioned `x` was met by `w`, and `c` leads on from it
  | append_singleton w c ih =>
    rcases List.mem_cons.mp (h _ hp) with hfirst | hext
    · simp at hfirst
    · obtain ⟨⟨u, y⟩, hq, hext⟩ := List.mem_flatMap.mp hext
      obtain ⟨⟨e, z⟩, hm, heq⟩ := List.mem_map.mp hext
      obtain ⟨hword, rfl⟩ := Prod.mk.inj heq
      obtain ⟨rfl, hletter⟩ := List.append_inj' hword rfl
      obtain rfl := List.singleton_inj.mp hletter
      exact .concat (ih hq) hm

/-- Where everything that is mentioned was met by a word not behind, so is all that walks
lead to. If the element before was met by a lesser word, that word with the letter behind
it is lesser too. -/
theorem covered_of_walk (h : ∀ p ∈ mentions moves first met, Covered met p)
    (hw : Walk moves first w x) : Covered met (w, x) := by
  induction hw with
  | nil => exact h _ List.mem_cons_self
  | @concat w c x y _ hm ih =>
    obtain ⟨⟨u, _⟩, hu, rfl, hle⟩ := ih
    have hmention : (u ++ [c], y) ∈ mentions moves first met :=
      List.mem_cons_of_mem _ (List.mem_flatMap.mpr ⟨_, hu, List.mem_map.mpr ⟨_, hm, rfl⟩⟩)
    obtain ⟨q, hq, hqy, hle'⟩ := h _ hmention
    refine ⟨q, hq, hqy, ?_⟩
    rcases hle with rfl | hlt
    · exact hle'
    · have hlast := shortlex_concat hlt c c
      exact .inr (hle'.elim (fun heq => heq ▸ hlast) fun hlt' => shortlex_trans hlt' hlast)

/-- A search lists its elements by the least words that lead to them. The letters of each
element's moves must be in order; nothing is asked of the elements themselves. -/
theorem explore_inWordOrder [Keyed α] {next : α → List α} {fin : FiniteRange next}
    (hnext : ∀ x, next x = (moves x).map (·.2))
    (hmoves : ∀ x, ((moves x).map (·.1)).Pairwise (· < ·)) :
    InWordOrder (Walk moves first) (explore next fin [first]) := by
  obtain ⟨met, hmet⟩ := (Frontier.byWord_start moves first).run hnext hmoves fin
  have hfound : explore next fin [first] = met.map (·.2) := hmet.found
  -- the search has visited all that it met, so everything mentioned is covered
  have hall : met.take (Frontier.run next id fin (fun _ => false)
      (Frontier.pushAll {} [first])).steps.size = met := by
    refine List.take_of_length_le (Nat.le_trans (Nat.le_of_eq ?_) (Frontier.size_found_run_le _))
    rw [← Array.length_toList, hmet.found, List.length_map]
  obtain ⟨-, hsorted, hsublist, hcovered⟩ := hmet
  rw [hall] at hsublist hcovered
  have hnodup : (met.map (·.2)).Nodup := hfound ▸ nodup_explore
  rw [hfound]
  refine ⟨met.map (·.1), List.pairwise_map.mpr hsorted, ?_⟩
  rw [List.forall₂_map_left_iff, List.forall₂_map_right_iff, List.forall₂_same]
  intro p hp
  refine ⟨walk_of_mem (fun q hq => hsublist.subset hq) hp, ?_⟩
  intro v hv
  obtain ⟨q, hq, hqp, hle⟩ := covered_of_walk hcovered hv
  obtain rfl := List.inj_on_of_nodup_map hnodup hq hp hqp
  exact hle

end Order

-- ---------------------------------------------------------------------------
-- Searches without letters
-- ---------------------------------------------------------------------------

section Numbered

variable {next : α → List α} {first x : α} {w : List Nat}

/-- Where the targets lead whose places in the lists of targets are given, one after the other. -/
def followPlaces (next : α → List α) (first : α) (w : List Nat) : Option α :=
  w.foldlM (fun x i => (next x)[i]?) first

/-- The targets with their places. -/
def numbered (next : α → List α) (x : α) : List (Nat × α) :=
  (next x).zipIdx.map Prod.swap

/-- A place and a target belong together if the target stands there. -/
theorem mem_numbered {y : α} {i : Nat} : (i, y) ∈ numbered next x ↔ (next x)[i]? = some y := by
  unfold numbered
  rw [← Prod.swap_prod_mk, List.mem_map_of_injective Prod.swap_injective,
    List.mk_mem_zipIdx_iff_getElem?]

/-- Walks over numbered targets are the sequences of places, so a search without letters
is one where the places are the letters. -/
theorem walk_numbered_iff :
    Walk (numbered next) first w x ↔ followPlaces next first w = some x := by
  constructor
  · intro h
    induction h with
    | nil => rfl
    | concat _ hm ih =>
      rw [followPlaces, List.foldlM_append]
      rw [followPlaces] at ih
      simpa [ih] using mem_numbered.mp hm
  · intro h
    -- the last place is the last step, so the word is taken apart from its end
    induction w using List.reverseRecOn generalizing x with
    | nil =>
      obtain rfl := Option.some.inj h
      exact .nil
    | append_singleton w i ih =>
      rw [followPlaces, List.foldlM_append] at h
      obtain ⟨y, hy, hx⟩ := Option.bind_eq_some_iff.mp h
      exact (ih hy).concat (mem_numbered.mpr (by simpa using hx))

/-- A search without letters lists its elements by the least places at which they are
targets. -/
theorem explore_inPlaceOrder [Keyed α] {fin : FiniteRange next} :
    InWordOrder (fun w x => followPlaces next first w = some x) (explore next fin [first]) := by
  have hnext : ∀ x, next x = (numbered next x).map (·.2) := fun x => by
    simp [numbered, Function.comp_def]
  have hplaces : ∀ x, ((numbered next x).map (·.1)).Pairwise (· < ·) := fun x => by
    have hall : (numbered next x).map (·.1) = List.range' 0 (next x).length := by
      simp [numbered, Function.comp_def]
    exact hall ▸ List.pairwise_lt_range'
  exact (explore_inWordOrder hnext hplaces).congr fun _ _ _ => walk_numbered_iff

end Numbered

end PatternAutomata
