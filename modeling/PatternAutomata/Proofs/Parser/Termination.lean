import PatternAutomata.Proofs.Parser.Descent
import PatternAutomata.Proofs.Parser.Machine

/-!
# Pattern automata — a parse comes to its end

Every rule has a run from wherever a parser is, and it ends as the rule of `Machine`
says (`Performs`). The runs are put together as the rules are: a loop by what is left to
do, which gets less in every round, and groups by the levels that are left.

Two things could be in the way of a run. The next depth may be no word; but a group is
opened only below the limit, so it is one if the limit is. And a token may be left over
that no error is known for; but the inside of a group stops only at a bracket, at the end
or at an invalid character, as its run shows.

## Results

* `performs_ruleFor` — every rule has a run, at every depth.
* `rules_end` — every parse comes to its end and keeps its place.
-/

namespace PatternAutomata

namespace Parser

namespace Machine

variable {o : Options} {t t' : Task} {n : Nonterminal} {op : Operator} {depth : Nat}
  {m m' start : Machine} {origin origin' : Machine} {least least' : Nat}

/-- The task has a run, and it makes and leaves what `x` says. So a task that performs is
never stuck. -/
def Performs (t : Task) (depth : Nat) (m : Machine) (x : Except Fault (Ran origin least)) : Prop :=
  ∃ r moments, x = .ok r ∧ Run t depth m moments r.node r.after

namespace Performs

variable {x : Except Fault (Ran origin least)}

/-- A run of one task may be the end of a run of another. -/
theorem imp (h : Performs t depth m x)
    (hrun : ∀ {moments node m'}, Run t depth m moments node m' →
      ∃ moments', Run t' depth start moments' node m') : Performs t' depth start x := by
  obtain ⟨r, moments, rfl, hr⟩ := h
  obtain ⟨moments', hr'⟩ := hrun hr
  exact ⟨r, moments', rfl, hr'⟩

/-- One task after another. -/
theorem bind {f : Ran origin least → Except Fault (Ran origin' least')}
    (h : Performs t depth m x)
    (hf : ∀ r moments, Run t depth m moments r.node r.after → Performs t' depth start (f r)) :
    Performs t' depth start (x >>= f) := by
  obtain ⟨r, moments, rfl, hr⟩ := h
  exact hf r moments hr

theorem rule (h : Performs (.body n) depth m x) : Performs (.rule n) depth m x :=
  h.imp fun hr => ⟨_, .rule hr⟩

end Performs

/-- The rule performs wherever the parser is. -/
def PerformsOn (o : Options) (depth : Nat) (n : Nonterminal) (operand : OperandRule) : Prop :=
  ∀ m : Machine, m.options = o → Performs (.rule n) depth m (operand m)

/-- It does so where a group is opened. -/
def PerformsOnGroups (o : Options) (depth : Nat) (group : GroupRule) : Prop :=
  ∀ m : Machine, m.options = o → ∀ hdone h, Performs (.body .atom) depth m (group m hdone h)

variable {group : GroupRule} {operand inside : OperandRule}

-- ---------------------------------------------------------------------------
-- Repetitions
-- ---------------------------------------------------------------------------

/-- An atom is decided by the lookahead. Only for a group there is anything to be known:
that its inside performs, one level deeper. -/
theorem performs_atom (hgroup : PerformsOnGroups o depth group) :
    PerformsOn o depth .atom (atom group) := by
  intro m ho
  refine .rule ?_
  unfold atom
  split
  · rename_i hdone
    exact ⟨_, _, rfl, .atom_done hdone⟩
  · rename_i hdone
    have hdone : m.done = false := by simpa using hdone
    split
    · rename_i c h
      exact ⟨_, _, rfl, .atom_literal hdone h⟩
    · rename_i h
      -- the group is opened by the body of the atom
      refine (hgroup m ho hdone h).bind fun r moments hr => ⟨_, moments, rfl, hr⟩
    all_goals
      rename_i h
      exact ⟨_, _, rfl, .atom_omitted hdone (by rw [h]; rfl)⟩

/-- The stars behind an operand are as many as there are. -/
theorem exists_run_stars (depth : Nat) (r : Ran origin least) :
    ∃ moments, Run (.stars r.node) depth r.after moments (stars r).node (stars r).after := by
  fun_induction stars r with
  | case1 r h after hlt ih =>
    obtain ⟨moments, hrun⟩ := ih
    exact ⟨_, .stars_next h.1 h.2 hrun⟩
  | case2 r h => exact ⟨[], .stars_end h⟩

/-- An atom and the stars behind it. -/
theorem performs_repetition (hgroup : PerformsOnGroups o depth group) :
    PerformsOn o depth .repetition (repetition group) := by
  intro m ho
  refine .rule ((performs_atom hgroup m ho).bind fun r moments hr => ?_)
  obtain ⟨others, hothers⟩ := exists_run_stars depth r
  exact ⟨stars r, _, rfl, .repetition hr hothers⟩

-- ---------------------------------------------------------------------------
-- Chains of operands
-- ---------------------------------------------------------------------------

/-- Factor by factor. The induction is on what is left to do: the characters that are
left, and the end of the pattern until there is an error. -/
theorem performs_factors (hgroup : PerformsOnGroups o depth group) (left : Ran origin least)
    (ho : left.after.options = o) :
    Performs (.factors left.node) depth left.after (factors group left) := by
  generalize hn : left.after.todo = n
  induction n using Nat.strongRecOn generalizing left with
  | ind n ih =>
    rw [factors]
    split
    · rename_i h
      refine (performs_repetition hgroup left.after ho).bind fun right moments hright => ?_
      -- the factor that starts here takes a character or ends in an error
      have hle : right.after.todo + left.after.least ≤ left.after.todo := right.todo_le
      have hleast := least_eq_one h.1 h.2
      refine (ih right.after.todo (by omega) _ (hright.options_eq.trans ho) rfl).imp fun hr => ?_
      exact ⟨_, .factors_next h.1 h.2 hright hr⟩
    · rename_i h
      exact ⟨left, [], rfl, .factors_end h⟩

/-- A factor and those behind it. -/
theorem performs_concatenation (hgroup : PerformsOnGroups o depth group) :
    PerformsOn o depth .concatenation (concatenation group) := by
  intro m ho
  refine .rule ((performs_repetition hgroup m ho).bind fun left moments hleft => ?_)
  refine (performs_factors hgroup left (hleft.options_eq.trans ho)).imp fun hr => ?_
  exact ⟨_, .concatenation hleft hr⟩

/-- Operand by operand, with their sign before each of them. A sign is a character, so
less is left to do behind it, even if the operand is left out. -/
theorem performs_operands (op : Operator) (hoperand : PerformsOn o depth op.operand operand)
    (left : Ran origin least) (ho : left.after.options = o) :
    Performs (.operands op left.node) depth left.after (operands op operand left) := by
  generalize hn : left.after.todo = n
  induction n using Nat.strongRecOn generalizing left with
  | ind n ih =>
    rw [operands]
    split
    · rename_i h
      refine (hoperand left.after.advance ho).bind fun right moments hright => ?_
      -- the operand may be left out, but its operator was taken
      have hlt := todo_advance_lt h.1 (h.2 ▸ op.token_ne_finish)
      have hle : right.after.todo + left.after.advance.least ≤ left.after.advance.todo :=
        right.todo_le
      refine (ih right.after.todo (by omega) _ (hright.options_eq.trans ho) rfl).imp fun hr => ?_
      exact ⟨_, .operands_next h.1 h.2 hright hr⟩
    · rename_i h
      exact ⟨left, [], rfl, .operands_end h⟩

/-- A whole chain: its first operand, and the others. -/
theorem performs_chain (op : Operator) (hoperand : PerformsOn o depth op.operand operand) :
    PerformsOn o depth (.chain op) (fun m => do operands op operand (← operand m)) := by
  intro m ho
  refine .rule ((hoperand m ho).bind fun left moments hleft => ?_)
  refine (performs_operands op hoperand left (hleft.options_eq.trans ho)).imp fun hr => ?_
  exact ⟨_, .chain hleft hr⟩

theorem performs_alternation (hgroup : PerformsOnGroups o depth group) :
    PerformsOn o depth (.chain .bar) (alternation group) :=
  performs_chain .bar (performs_concatenation hgroup)

theorem performs_interleaving (hgroup : PerformsOnGroups o depth group) :
    PerformsOn o depth (.chain .amp) (interleaving group) :=
  performs_chain .amp (performs_alternation hgroup)

-- ---------------------------------------------------------------------------
-- Groups
-- ---------------------------------------------------------------------------

/-- The dialect says which chain a whole expression is, to the rule and to the run alike. -/
theorem performs_expression (hgroup : PerformsOnGroups o depth group) :
    PerformsOn o depth .regexp (expression group) := by
  intro m ho
  have hchain : Performs (.rule (.chain m.options.dialect.weakest)) depth m
      (expression group m) := by
    unfold expression Dialect.weakest
    split
    · exact performs_interleaving hgroup m ho
    · exact performs_alternation hgroup m ho
  exact .rule (hchain.imp fun hr => ⟨_, .regexp hr⟩)

theorem performs_tooDeep (hdepth : o.maxDepth ≤ depth) : PerformsOnGroups o depth tooDeep := by
  intro m ho hdone h
  exact ⟨_, _, rfl, .atom_tooDeep hdone h (ho ▸ hdepth)⟩

/-- What stops a whole expression and is no bracket is known to be wrong. -/
theorem exists_unexpected (h : Nonterminal.regexp.StopsAt m.lookahead)
    (hclosing : m.lookahead ≠ .closing) : ∃ kind, m.unexpected = .ok kind := by
  unfold unexpected
  obtain h | h | ⟨c, h⟩ := h
  · exact absurd h hclosing
  · exact ⟨.unclosedGroup, by rw [h]⟩
  · exact ⟨.invalidCharacter c, by rw [h]⟩

/-- Below the limit the next depth is a word. The inside stops at a `)` or where an error
is known, so the group is closed or the parser fails. -/
theorem performs_groupOf (hword : o.maxDepth ≤ maxWord) (hdepth : depth < o.maxDepth)
    (hinside : PerformsOn o (depth + 1) .regexp inside) :
    PerformsOnGroups o depth (groupOf inside) := by
  intro m ho hdone h
  -- the depth is below a limit that is a word, so adding one does not overflow
  have hsum : addWords depth 1 = .ok (depth + 1) := addWords_eq_ok_iff.mpr ⟨rfl, by omega⟩
  obtain ⟨inner, moments, hok, hinner⟩ := hinside m.advance ho
  have hstopped : Nonterminal.regexp.Stopped inner.after := hinner.stopped trivial
  have hgroup : ∀ {others node m'}, Run (.close inner.node) depth inner.after others node m' →
      Run (.body .atom) depth m (⟨.consume, m⟩ :: moments ++ others) node m' :=
    .atom_group hdone h (ho ▸ hdepth) hsum hinner
  unfold groupOf
  rw [hok, ok_bind]
  split
  · rename_i hdone'
    exact ⟨_, _, rfl, hgroup (.close_done hdone')⟩
  · rename_i hdone'
    have hstops := hstopped.resolve_left hdone'
    have hdone' : inner.after.done = false := by simpa using hdone'
    split
    · rename_i hclosing
      exact ⟨_, _, rfl, hgroup (.close_closing hdone' hclosing)⟩
    · rename_i hclosing
      obtain ⟨kind, hkind⟩ := exists_unexpected hstops hclosing
      rw [hkind]
      exact ⟨_, _, rfl, hgroup (.close_unexpected hdone' hclosing hkind)⟩

theorem regexp_eq (room : Nat) : regexp room = expression (groupAt room) := by
  cases room <;> rfl

/-- A group at any depth, by induction on the levels that are left under it. There are
none left at the limit. -/
theorem performs_groupAt (hword : o.maxDepth ≤ maxWord) (depth : Nat) :
    PerformsOnGroups o depth (groupAt (o.maxDepth - depth)) := by
  generalize hroom : o.maxDepth - depth = room
  induction room generalizing depth with
  | zero => exact performs_tooDeep (by omega)
  | succ room ih =>
    have hinside := performs_expression (ih (depth + 1) (by omega))
    rw [← regexp_eq] at hinside
    exact performs_groupOf hword (by omega) hinside

/-- Every rule, at every depth. This is the first half of termination: there is a run, and
it makes what the rule computes. -/
theorem performs_ruleFor (hword : o.maxDepth ≤ maxWord) (n : Nonterminal) (depth : Nat) :
    PerformsOn o depth n (ruleFor (groupAt (o.maxDepth - depth)) n) := by
  have hgroup := performs_groupAt hword depth
  match n with
  | .regexp => exact performs_expression hgroup
  | .chain .amp => exact performs_interleaving hgroup
  | .chain .bar => exact performs_alternation hgroup
  | .concatenation => exact performs_concatenation hgroup
  | .repetition => exact performs_repetition hgroup
  | .atom => exact performs_atom hgroup

-- ---------------------------------------------------------------------------
-- Whole patterns
-- ---------------------------------------------------------------------------

/-- A whole parse has a run: that of its expression, and what is done with the token
behind it. -/
theorem exists_run_pattern (m : Machine) (hword : m.options.maxDepth ≤ maxWord) :
    ∃ moments body m', m.whole = .ok (body, m') ∧ Run .pattern 0 m moments body m' := by
  obtain ⟨r, moments, hok, hr⟩ := performs_ruleFor hword .regexp 0 m rfl
  have hstopped : Nonterminal.regexp.Stopped r.after := hr.stopped trivial
  -- at depth zero all levels are left
  have hregexp : regexp m.options.maxDepth m = .ok r := by
    rw [regexp_eq]
    exact hok
  rw [whole, hregexp, ok_bind]
  dsimp only
  split
  · rename_i hdone
    exact ⟨_, _, _, rfl, .pattern hr (.finish_done hdone)⟩
  · rename_i hdone
    have hstops := hstopped.resolve_left hdone
    have hdone : r.after.done = false := by simpa using hdone
    split
    · rename_i hend
      exact ⟨_, _, _, rfl, .pattern hr (.finish_end hdone hend)⟩
    · rename_i hclosing
      exact ⟨_, _, _, rfl, .pattern hr (.finish_closing hdone hclosing)⟩
    · rename_i hend hclosing
      obtain ⟨kind, hkind⟩ := exists_unexpected hstops hclosing
      rw [hkind]
      exact ⟨_, _, _, rfl, .pattern hr (.finish_unexpected hdone hend hclosing hkind)⟩

/-- To give out the answer moves nothing. Nodes may be handed over, but the place in the
pattern stays. -/
theorem samePlace_of_result {answer : Except SyntaxError ParseTree}
    (h : m.result = .ok (answer, m')) : m.SamePlace m' := by
  cases herror : m.error? with
  | some e =>
    rw [result_eq_error herror] at h
    obtain rfl := (Prod.mk.inj (Except.ok.inj h)).2
    exact .refl m
  | none =>
    unfold result at h
    rw [herror] at h
    obtain ⟨-, -, h⟩ := bind_eq_ok.mp h
    obtain rfl := (Prod.mk.inj (Except.ok.inj h)).2
    exact ⟨rfl, rfl, rfl⟩

/-- The task has a run, and no other: so it ends, and what it comes to is determined,
moment by moment. -/
structure Ends (t : Task) (depth : Nat) (m : Machine) (moments : List Moment) (node : Nat)
    (m' : Machine) : Prop where
  run : Run t depth m moments node m'
  only : ∀ others node' m'', Run t depth m others node' m'' →
    others = moments ∧ node' = node ∧ m'' = m'

theorem Run.ends {moments : List Moment} {node : Nat} (h : Run t depth m moments node m') :
    Ends t depth m moments node m' where
  run := h
  only _ _ _ h' := h'.unique h

/-- A rule that was entered from `m` comes to its end, and stops where it may or after an
error. It may be entered at any depth; only that it keeps its place is said for those that
are allowed. -/
structure RuleEnds (n : Nonterminal) (depth : Nat) (m : Machine) (moments : List Moment)
    (r : Ran m m.least) : Prop where
  computed : ruleFor (groupAt (m.options.maxDepth - depth)) n m = .ok r
  ends : Ends (.rule n) depth m moments r.node r.after
  entered : moments.head? = some ⟨.enter n depth, m⟩
  stopped : r.after.done = true ∨ n.StopsAt r.after.lookahead
  keepsPlace : depth ≤ m.options.maxDepth → m.cursor ≤ m.chars.size → m.KeepsPlace moments r.after

/-- A parse of a pattern comes to its end. What is done after its last rule changes no
place. -/
structure ParseEnds (m : Machine) (pattern : String) (moments : List Moment) (body : Nat)
    (m' : Machine) : Prop where
  computed : (m.setPattern pattern).whole = .ok (body, m')
  ends : Ends .pattern 0 (m.setPattern pattern) moments body m'
  entered : moments.head? = some ⟨.enter .regexp 0, m.setPattern pattern⟩
  keepsPlace : (m.setPattern pattern).KeepsPlace moments m'
  answered : ∃ answer m'', m.parse pattern = .ok (answer, m'') ∧ m'.SamePlace m'' ∧
    (m.view.parse pattern).1 = answer.mapError .rejected

/-- A parser is never stuck in its rules, and never out of place: every rule ends, from
any depth, and so does every parse. -/
structure RulesEnd (m : Machine) : Prop where
  rules : ∀ n depth, ∃ moments r, RuleEnds n depth m moments r
  patterns : ∀ pattern, ∃ moments body m', ParseEnds m pattern moments body m'

/-- The run of a rule says where it was entered and where it stopped. The rules count the
depth up, and the limit, which is a word, keeps it from running over. -/
theorem exists_ruleEnds (m : Machine) (hword : m.options.maxDepth ≤ maxWord) (n : Nonterminal)
    (depth : Nat) : ∃ moments r, RuleEnds n depth m moments r := by
  obtain ⟨r, moments, hok, hr⟩ := performs_ruleFor hword n depth m rfl
  obtain ⟨rest, hrest, -⟩ := hr.exists_path
  exact ⟨moments, r, {
    computed := hok
    ends := hr.ends
    entered := by rw [hrest, List.head?_cons]
    stopped := hr.stopped trivial
    keepsPlace := hr.keepsPlace }⟩

/-- The run of a parse, and the answer that the parser gives after it. The run says that
the parser comes to its end, and the reader of the grammar which answer that is. -/
theorem exists_parseEnds (m : Machine) (hword : m.options.maxDepth ≤ maxWord) (pattern : String) :
    ∃ moments body m', ParseEnds m pattern moments body m' := by
  obtain ⟨moments, body, m', hwhole, hr⟩ := exists_run_pattern (m.setPattern pattern) hword
  obtain ⟨rest, hrest, -⟩ := hr.exists_path_of_pattern
  obtain ⟨answer, m'', hparse, hanswer, -, -⟩ := m.parse_refines pattern
  have hresult : (m'.endMarker.push (.concat body m'.endMarker.top)).result =
      .ok (answer, m'') := by
    rw [parse, hwhole] at hparse
    exact hparse
  -- the nodes of the end marker are added where the parser stands
  have hplace := samePlace_of_result hresult
  exact ⟨moments, body, m', {
    computed := hwhole
    ends := hr.ends
    entered := by rw [hrest, List.head?_cons]
    keepsPlace := hr.keepsPlace_of_pattern (Nat.zero_le _) (Nat.zero_le _)
    answered := ⟨answer, m'', hparse,
      ⟨hplace.options_eq, hplace.chars_eq, hplace.cursor_eq⟩, hanswer⟩ }⟩

/-- **Parsing terminates**: every rule comes to its end on every pattern, in both dialects
and however deep groups may be nested, if that is a word. On the way the parser keeps its
place. -/
theorem rules_end (m : Machine) (hword : m.options.maxDepth ≤ maxWord) : m.RulesEnd where
  rules := exists_ruleEnds m hword
  patterns := exists_parseEnds m hword

/-- Groups as deep as a word can count, and no groups at all. The patterns beside them
show a parse that succeeds, one that meets the end within a group, and one that opens a
group where none is allowed. -/
theorem rules_end_at_largest_and_least_depth :
    ∃ deep flat : Machine, deep.options = { dialect := .parallel, maxDepth := maxWord } ∧
      flat.options = { dialect := .plain, maxDepth := 0 } ∧
      deep.options.maxDepth ≤ maxWord ∧ flat.options.maxDepth ≤ maxWord ∧
      firstError? deep.options "((a&b)*|(c))d" = none ∧
      firstError? deep.options "((a|" = some ⟨.unclosedGroup, 4, 1⟩ ∧
      firstError? flat.options "a|(b)" = some ⟨.tooDeep 0, 2, 1⟩ ∧
      deep.RulesEnd ∧ flat.RulesEnd := by
  have hleast : 0 ≤ maxWord := Nat.zero_le _
  refine ⟨{ options := { dialect := .parallel, maxDepth := maxWord } },
    { options := { dialect := .plain, maxDepth := 0 } }, rfl, rfl, Nat.le_refl _, hleast,
    by decide, by decide, by decide, rules_end _ (Nat.le_refl _), rules_end _ hleast⟩

end Machine

end Parser

end PatternAutomata
