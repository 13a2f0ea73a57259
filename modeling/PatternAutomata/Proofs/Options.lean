import PatternAutomata.Proofs.Compiled
import PatternAutomata.Proofs.Parser.Surroundings

/-!
# Pattern automata — what options decide

The limit on nested groups is looked at where a group is opened, and the dialect
where a `&` stands; neither has a say anywhere else. So the limit decides whether
a pattern is read but not what it is read as, and a higher one rejects nothing
more. The dialect decides what a pattern is read as, by what `&` means in it, but
not whether it is read: as a literal and as an operator, `&` may stand at the same
places.

Two runs under different options are compared. For what is read, the rules repeat
each other where the characters mean the same; for what is rejected, it is enough
to compare two scans for brackets.

## Results

* `read_of_read`              — what is read under some options is read the same under others.
* `firstErrorFrom_withDialect` — the scan finds the same error in every dialect.
* `compile_optionsDecide`     — what the limit and the dialect decide, and what they do not.
-/

namespace PatternAutomata

-- ---------------------------------------------------------------------------
-- Characters
-- ---------------------------------------------------------------------------

/-- All characters but `&` mean the same in every dialect. It is the only sign that a
dialect may lack. -/
theorem ofChar_eq_of_ne_amp {c : Char} (hc : c ≠ '&') (d d' : Dialect) :
    Token.ofChar d' c = Token.ofChar d c := by
  have hliteral : d'.isLiteral c = d.isLiteral c := by
    unfold Dialect.isLiteral
    rw [if_neg hc, if_neg hc]
  unfold Token.ofChar
  rw [hliteral]
  simp only [hc, false_and]

/-- What is read under some options is read the same under others, if they allow as many
groups and the characters of the pattern mean the same. The reading itself is the proof:
it is gone through again under the other options. -/
theorem read_of_read {o o' : Options} {pattern : String} {e : Expr Char}
    (h : (read o pattern).result = .ok e) (hdepth : o.maxDepth ≤ o'.maxDepth)
    (hsame : ∀ c ∈ pattern.toList, Token.ofChar o'.dialect c = Token.ofChar o.dialect c) :
    (read o' pattern).result = .ok e :=
  read_of_reads (reads_of_read_of_same h hdepth hsame)

-- ---------------------------------------------------------------------------
-- Limits
-- ---------------------------------------------------------------------------

section Limits

variable {d : Dialect} {limit limit' : Nat} {pattern : String} {t u : ParseTree}

/-- A higher limit changes nothing about a pattern that compiles. -/
theorem compile_of_le (hle : limit ≤ limit')
    (h : compile { dialect := d, maxDepth := limit } pattern = .ok t) :
    compile { dialect := d, maxDepth := limit' } pattern = .ok t := by
  obtain ⟨e, hread, rfl⟩ := compile_eq_ok_iff.mp h
  exact compile_eq_ok_iff.mpr ⟨e, read_of_read hread hle fun _ _ => rfl, rfl⟩

/-- A pattern that compiles under two limits compiles to the same tree. The lower limit is
raised to the higher one. -/
theorem compile_limit_unique
    (h : compile { dialect := d, maxDepth := limit } pattern = .ok t)
    (h' : compile { dialect := d, maxDepth := limit' } pattern = .ok u) : u = t := by
  rcases Nat.le_total limit limit' with hle | hle
  · have hraised := compile_of_le hle h
    exact Except.ok.inj (h'.symm.trans hraised)
  · have hraised := compile_of_le hle h'
    exact Except.ok.inj (hraised.symm.trans h)

end Limits

-- ---------------------------------------------------------------------------
-- Dialects
-- ---------------------------------------------------------------------------

/-- The scan goes past a `&`, whatever it means: as a literal and as an operator it opens
and closes nothing. -/
theorem firstErrorFrom_amp (o : Options) (opened offset : Nat) (rest : List Char) :
    firstErrorFrom o opened offset ('&' :: rest) = firstErrorFrom o opened (offset + 1) rest := by
  obtain ⟨d, limit⟩ := o
  rw [firstErrorFrom_cons]
  cases d <;> rfl

/-- The scan finds the same error in every dialect. The induction is on the text: `&` is
passed over in each of them, and all other characters mean the same. -/
theorem firstErrorFrom_withDialect (o : Options) (d : Dialect) (opened offset : Nat)
    (text : List Char) : firstErrorFrom { o with dialect := d } opened offset text =
      firstErrorFrom o opened offset text := by
  induction text generalizing opened offset with
  | nil => rfl
  | cons c rest ih =>
    by_cases hc : c = '&'
    · subst hc
      rw [firstErrorFrom_amp, firstErrorFrom_amp, ih]
    · rw [firstErrorFrom_cons, firstErrorFrom_cons, ofChar_eq_of_ne_amp hc o.dialect d]
      split
      · rfl
      · rw [ih]
      · -- a `)` with nothing open is an error in each of them
        cases opened with
        | zero => rfl
        | succ outer => exact ih outer (offset + 1)
      all_goals exact ih opened (offset + 1)

/-- So a pattern is read in all dialects or rejected with the same error: `&` is a literal
in one of them and an operator in the other, and no error in either. -/
theorem compile_withDialect (o : Options) (d : Dialect) (pattern : String) :
    (compile { o with dialect := d } pattern).map (fun _ => ()) =
      (compile o pattern).map fun _ => () := by
  have hscan : firstError? { o with dialect := d } pattern = firstError? o pattern :=
    firstErrorFrom_withDialect o d 0 0 pattern.toList
  cases h : firstError? o pattern with
  | none =>
    obtain ⟨body, hcompile⟩ := exists_compile_eq_ok h
    obtain ⟨body', hcompile'⟩ := exists_compile_eq_ok (hscan.trans h)
    rw [hcompile, hcompile']
    rfl
  | some e => rw [compile_eq_error h, compile_eq_error (hscan.trans h)]

namespace ParseTree

/-- Another tree with the same nodes, symbols and positions. The pattern and the dialect
that are noted with a tree are left aside. -/
structure SameContents (t u : ParseTree) : Prop where
  nodes_eq : u.nodes = t.nodes
  symbols_eq : u.symbols = t.symbols
  positions_eq : u.positions = t.positions

/-- Another tree that has the same automata, state by state. Both constructions are made
for both trees, and answer equal automata. -/
structure SameAutomata (t u : ParseTree) : Prop where
  thompson : ∃ n, t.thompson = .ok n ∧ u.thompson = .ok n
  direct : ∃ d, t.direct = .ok d ∧ u.direct = .ok d

variable {t : ParseTree} {d : Dialect}

/-- Thompson's construction never asks for the dialect of a tree. -/
theorem thompson_withDialect : { t with dialect := d : ParseTree }.thompson = t.thompson := rfl

theorem direct_withDialect : { t with dialect := d : ParseTree }.direct = t.direct := rfl

end ParseTree

/-- Without a `&` the dialect is only noted in the tree. -/
theorem compile_withDialect_of_not_mem {o : Options} {pattern : String} {t : ParseTree}
    (d : Dialect) (hamp : '&' ∉ pattern.toList) (h : compile o pattern = .ok t) :
    compile { o with dialect := d } pattern = .ok { t with dialect := d } := by
  have hsame : ∀ c ∈ pattern.toList, Token.ofChar d c = Token.ofChar o.dialect c := fun c hc =>
    ofChar_eq_of_ne_amp (fun h => hamp (h ▸ hc)) o.dialect d
  obtain ⟨e, hread, rfl⟩ := compile_eq_ok_iff.mp h
  exact compile_eq_ok_iff.mpr ⟨e, read_of_read hread (Nat.le_refl _) hsame, rfl⟩

-- ---------------------------------------------------------------------------
-- Both
-- ---------------------------------------------------------------------------

/-- What options decide about a pattern: a limit may only reject it, and a dialect only changes
what it is read as, if there is a `&` in it. -/
structure OptionsDecide (pattern : String) : Prop where
  limits_agree : ∀ d limit limit' t u,
    compile { dialect := d, maxDepth := limit } pattern = .ok t →
    compile { dialect := d, maxDepth := limit' } pattern = .ok u → t.SameContents u
  higher_limit : ∀ d limit limit' t, limit ≤ limit' →
    compile { dialect := d, maxDepth := limit } pattern = .ok t →
    ∃ u, compile { dialect := d, maxDepth := limit' } pattern = .ok u
  same_outcome : ∀ limit,
    (compile { dialect := .parallel, maxDepth := limit } pattern).map (fun _ => ()) =
      (compile { dialect := .plain, maxDepth := limit } pattern).map fun _ => ()
  same_tree : '&' ∉ pattern.toList → ∀ limit t u,
    compile { dialect := .plain, maxDepth := limit } pattern = .ok t →
    compile { dialect := .parallel, maxDepth := limit } pattern = .ok u →
    t.SameContents u ∧ t.SameAutomata u

/-- **Options matter only where they should**: the limit decides whether a pattern
compiles and not what it compiles to, and the dialect has no say where no `&` stands. -/
theorem compile_optionsDecide (pattern : String) : OptionsDecide pattern where
  limits_agree d limit limit' t u ht hu := by
    obtain rfl := compile_limit_unique ht hu
    exact ⟨rfl, rfl, rfl⟩
  higher_limit d limit limit' t hle ht := ⟨t, compile_of_le hle ht⟩
  same_outcome limit := compile_withDialect { maxDepth := limit } .parallel pattern
  same_tree hamp limit t u ht hu := by
    have hparallel := compile_withDialect_of_not_mem .parallel hamp ht
    obtain rfl := Except.ok.inj (hparallel.symm.trans hu)
    obtain ⟨n, -, direct, hn, -, hdirect, -⟩ := constructions_agree ht
    exact ⟨⟨rfl, rfl, rfl⟩, ⟨n, hn, ParseTree.thompson_withDialect.trans hn⟩,
      direct, hdirect, ParseTree.direct_withDialect.trans hdirect⟩

/-- A pattern with the limit on its innermost group, in both dialects, and with a higher
limit. Nothing is compared but trees and automata that are made. -/
theorem compile_optionsDecide_of_nested_groups :
    let pattern := "((a|)*b)c"
    '&' ∉ pattern.toList ∧ ∃ t u v, compile { maxDepth := 2 } pattern = .ok t ∧
      compile { maxDepth := 3 } pattern = .ok u ∧
      compile { dialect := .parallel, maxDepth := 2 } pattern = .ok v ∧
      t.SameContents u ∧ t.SameContents v ∧ t.SameAutomata v := by
  intro pattern
  have hamp : '&' ∉ pattern.toList := by decide
  have hscan : firstError? { maxDepth := 2 } pattern = none := by decide
  have hscan' : firstError? { dialect := .parallel, maxDepth := 2 } pattern = none := by decide
  obtain ⟨e, ht⟩ := exists_compile_eq_ok hscan
  obtain ⟨e', hv⟩ := exists_compile_eq_ok hscan'
  have hdecide := compile_optionsDecide pattern
  obtain ⟨u, hu⟩ := hdecide.higher_limit .plain 2 3 _ (by omega) ht
  have hsame := hdecide.same_tree hamp 2 _ _ ht hv
  exact ⟨hamp, _, u, _, ht, hu, hv, hdecide.limits_agree .plain 2 3 _ _ ht hu, hsame.1, hsame.2⟩

end PatternAutomata
