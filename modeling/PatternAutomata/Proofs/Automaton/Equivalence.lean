import PatternAutomata.Proofs.Automaton.Built

/-!
# Pattern automata — deciding equivalence

Two automata run side by side over all pairs of states that some word over both
alphabets leads to. If the members of every pair agree on being final, so do the
automata on every such word, and a word with another letter leaves both without a
state. If some pair disagrees, the word that leads to it tells the automata apart.

## Results

* `mem_reachedPairs_iff` — the pairs that are looked at are those that words lead to.
* `equivalent_eq_ok`     — on automata that fit together the question is settled.
* `equivalent_iff`       — and answered rightly for all automata that operations build.
-/

namespace PatternAutomata

namespace Dfa

variable {a b : Dfa} {p : Pair} {w : List Char} {c : Char}

-- ---------------------------------------------------------------------------
-- Pairs
-- ---------------------------------------------------------------------------

/-- The pair after a word. Either automaton may be left without a state, which is then its
member. -/
def pairAfter (a b : Dfa) (p : Pair) (w : List Char) : Pair :=
  (a.afterWord p.1 w, b.afterWord p.2 w)

theorem pairAfter_concat : pairAfter a b p (w ++ [c]) =
    (a.nextOf (pairAfter a b p w).1 c, b.nextOf (pairAfter a b p w).2 c) := by
  simp [pairAfter, afterWord, List.foldl_append]

/-- Every step of a search for pairs reads one more letter, so it reaches what words over
the letters lead to. -/
theorem reaches_nextPairs_iff {letters : List Char} {q : Pair} :
    Reaches (nextPairs a b letters) p q ↔ ∃ w, (∀ c ∈ w, c ∈ letters) ∧ pairAfter a b p w = q := by
  constructor
  · intro h
    induction h with
    | refl => exact ⟨[], nofun, rfl⟩
    | step _ hz ih =>
      obtain ⟨w, hw, rfl⟩ := ih
      obtain ⟨c, hc, rfl⟩ := List.mem_map.mp hz
      refine ⟨w ++ [c], fun e he => ?_, pairAfter_concat⟩
      rcases List.mem_append.mp he with he | he
      · exact hw e he
      · exact List.mem_singleton.mp he ▸ hc
  · rintro ⟨w, hw, rfl⟩
    -- the word is read from its first letter on, so the pair that it is read from has to
    -- vary
    have hrest : ∀ q, Reaches (nextPairs a b letters) p q →
        Reaches (nextPairs a b letters) p (pairAfter a b q w) := by
      induction w with
      | nil => exact fun q hq => hq
      | cons c w ih =>
        intro q hq
        have hc := hw c List.mem_cons_self
        exact ih (fun e he => hw e (List.mem_cons_of_mem _ he)) _
          (.step hq (List.mem_map.mpr ⟨c, hc, rfl⟩))
    exact hrest p .refl

/-- The pairs that are looked at are those that words over both alphabets lead to. The
search begins at the pair of the two starts. -/
theorem mem_reachedPairs_iff : p ∈ reachedPairs a b ↔
    ∃ w, (∀ c ∈ w, c ∈ letters a b) ∧ pairAfter a b (a.start, b.start) w = p := by
  unfold reachedPairs
  rw [mem_explore_iff]
  simp only [List.mem_singleton, exists_eq_left, reaches_nextPairs_iff]

theorem mem_letters_iff : c ∈ letters a b ↔ c ∈ a.alphabet ∨ c ∈ b.alphabet := by
  unfold letters
  rw [SortedSet.mem_toList, SortedSet.mem_union]

-- ---------------------------------------------------------------------------
-- The answer
-- ---------------------------------------------------------------------------

/-- The state after a word exists, if there is one. So the look at it in the search does
not fail. -/
theorem exists?_afterWord (ha : a.Valid) : a.exists? (a.afterWord a.start w) = true := by
  unfold exists?
  rw [Option.all_eq_true]
  intro s hs
  have hlt := afterWord_lt ha ha.start_lt s hs
  simpa [ha.size_rows] using hlt

/-- A pair that is reached settles the question only if its members disagree: the other
way to settle it is that a state is missing, and none is. -/
theorem settles_of_mem (ha : a.Valid) (hb : b.Valid) (hp : p ∈ reachedPairs a b) :
    settles a b p = disagree a b p := by
  obtain ⟨w, -, rfl⟩ := mem_reachedPairs_iff.mp hp
  unfold settles
  rw [pairAfter, exists?_afterWord ha, exists?_afterWord hb]
  simp

/-- The members of the pair after a word agree on being final exactly if the automata
agree on the word. -/
theorem disagree_pairAfter_iff (ha : a.Valid) (hb : b.Valid) (word : String) :
    disagree a b (pairAfter a b (a.start, b.start) word.toList) = false ↔
      a.accepts word = b.accepts word := by
  unfold disagree
  rw [bne_eq_false_iff_eq, accepts_eq ha, accepts_eq hb, pairAfter]
  simp

/-- A word with a letter that neither alphabet has leaves both automata without a state. -/
theorem accepts_eq_of_not_mem (ha : a.Valid) (hb : b.Valid) {word : String}
    (h : ∃ c ∈ word.toList, c ∉ letters a b) : a.accepts word = b.accepts word := by
  obtain ⟨c, hc, hnot⟩ := h
  rw [mem_letters_iff] at hnot
  rw [accepts_eq ha, accepts_eq hb, afterWord_eq_none ha ⟨c, hc, fun h => hnot (.inl h)⟩,
    afterWord_eq_none hb ⟨c, hc, fun h => hnot (.inr h)⟩]
  rfl

/-- On automata that fit together the question is settled, and rightly so. Either no pair
settles it, so that all pairs agree, or some word leads to a pair that disagrees and tells
the automata apart. -/
theorem equivalent_eq_ok (ha : a.Valid) (hb : b.Valid) :
    ∃ same, equivalent a b = .ok same ∧
      (same = true ↔ ∀ word : String, a.accepts word = b.accepts word) := by
  unfold equivalent
  rw [settlingPair?_eq]
  cases hfind : (reachedPairs a b).find? (settles a b) with
  | none =>
    refine ⟨true, rfl, fun _ word => ?_, fun _ => rfl⟩
    -- a word over both alphabets leads to a pair that was looked at, and any other one is
    -- rejected
    by_cases hletters : ∀ c ∈ word.toList, c ∈ letters a b
    · have hmem : pairAfter a b (a.start, b.start) word.toList ∈ reachedPairs a b :=
        mem_reachedPairs_iff.mpr ⟨_, hletters, rfl⟩
      have hagree := List.find?_eq_none.mp hfind _ hmem
      rw [settles_of_mem ha hb hmem, Bool.not_eq_true] at hagree
      exact (disagree_pairAfter_iff ha hb word).mp hagree
    · exact accepts_eq_of_not_mem ha hb (by simpa using hletters)
  | some p =>
    have hmem : p ∈ reachedPairs a b := List.mem_of_find?_eq_some hfind
    have hdisagree : disagree a b p = true := by
      rw [← settles_of_mem ha hb hmem]
      exact List.find?_some hfind
    refine ⟨false, if_pos hdisagree, (fun h => nomatch h), fun hsame => ?_⟩
    -- the word that leads to the pair is accepted by one automaton alone
    obtain ⟨w, -, rfl⟩ := mem_reachedPairs_iff.mp hmem
    have hagree := (disagree_pairAfter_iff ha hb (String.ofList w)).mpr (hsame _)
    rw [String.toList_ofList] at hagree
    exact absurd hdisagree (by simp [hagree])

/-- **Equivalence is decided**: of any two automata that operations build, no question
fails, and the answer is whether they accept the same words, of whatever characters. -/
theorem equivalent_iff (ha : a.Built) (hb : b.Built) :
    ∃ same, equivalent a b = .ok same ∧
      (same = true ↔ ∀ word : String, a.accepts word = b.accepts word) ∧
      ∀ word : String, ∃ x y, a.accepts word = .ok x ∧ b.accepts word = .ok y := by
  obtain ⟨same, hsame, hiff⟩ := equivalent_eq_ok ha.valid hb.valid
  exact ⟨same, hsame, hiff, fun word => ⟨_, _, accepts_eq ha.valid word, accepts_eq hb.valid word⟩⟩

theorem equivalent_iff_loop_and_empty :
    ∃ started ended looped : Dfa, (({} : Dfa).addState "s").1.setStart 0 = .ok started ∧
      started.addFinal 0 = .ok ended ∧ ended.addTransition 0 'a' 0 = .ok looped ∧
      ∃ same, equivalent looped {} = .ok same ∧
        (same = true ↔ ∀ word : String, looped.accepts word = ({} : Dfa).accepts word) ∧
        ∀ word : String, ∃ x y, looped.accepts word = .ok x ∧ ({} : Dfa).accepts word = .ok y := by
  let d := (({} : Dfa).addState "s").1
  have hstarted : d.setStart 0 = .ok (d.withStart 0) := rfl
  have hended : (d.withStart 0).addFinal 0 = .ok ((d.withStart 0).withFinals _) := rfl
  have hlooped : ((d.withStart 0).withFinals (.insert ∅ 0)).addTransition 0 'a' 0 =
      .ok (((d.withStart 0).withFinals (.insert ∅ 0)).link 0 'a' 0) := rfl
  exact ⟨_, _, _, hstarted, hended, hlooped, equivalent_iff
    (.addTransition (.addFinal (.setStart (.addState "s" .empty) hstarted) hended) hlooped) .empty⟩

end Dfa

end PatternAutomata
