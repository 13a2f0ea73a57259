import PatternAutomata.Parser.Brackets
import PatternAutomata.Proofs.ParseTree.WellFormed

/-!
# Pattern automata — reading is scanning for brackets

The grammar is read by recursive descent with a loop for each operator, but what
is wrong with a pattern is found by one scan that counts open groups. Each rule
keeps in step with that scan: what it reads the scan passes over, and where it
halts the scan reports the same error (`InStep`).

The rules also say at which tokens they stop. A rule stops only where no loop of
its own or of the rules in it can go on, so that a whole expression stops at a
`)`, at an invalid character or at the end, where the scan decides.

## Results

* `inStep_stars`, `inStep_factors`, `inStep_operands` — the loops keep in step,
* `inStep_regexp`   — and so does every rule, at every depth.
* `readAll_eq`      — a pattern is read exactly if the scan finds no error.
* `parse_eq_scan`   — the outcome of parsing is that of the scan.
-/

namespace PatternAutomata

variable {o : Options} {opened : Nat} {s : Cursor} {least : Nat}

/-- The first error from a place on, inside of `opened` groups. -/
def scan (o : Options) (opened : Nat) (s : Cursor) : Option SyntaxError :=
  firstErrorFrom o opened s.offset s.rest

-- ---------------------------------------------------------------------------
-- Steps of the scan
-- ---------------------------------------------------------------------------

theorem ofChar_ne_finish (d : Dialect) (c : Char) : Token.ofChar d c ≠ .finish := by
  unfold Token.ofChar
  grind

/-- A character that is no bracket is one that the parser knows, exactly if it is a literal or
the sign of an operator. -/
theorem ofChar_eq_invalid_iff {d : Dialect} {c : Char} (hopening : c ≠ '(') (hclosing : c ≠ ')') :
    Token.ofChar d c = .invalid c ↔ (d.isLiteral c || d.isSign c) = false := by
  grind [Token.ofChar, Dialect.isSign]

/-- The scan looks at characters and the parser at tokens. At one character they come to the
same: this is what connects the two, and everything after it is said about tokens. -/
theorem firstErrorFrom_cons (o : Options) (opened offset : Nat) (c : Char) (rest : List Char) :
    firstErrorFrom o opened offset (c :: rest) =
      match Token.ofChar o.dialect c with
      | .invalid c => some { kind := .invalidCharacter c, offset := offset, errors := 1 }
      | .opening =>
        if o.maxDepth ≤ opened then
          some { kind := .tooDeep o.maxDepth, offset := offset, errors := 1 }
        else firstErrorFrom o (opened + 1) (offset + 1) rest
      | .closing =>
        match opened with
        | 0 => some { kind := .unmatchedClose, offset := offset, errors := 1 }
        | outer + 1 => firstErrorFrom o outer (offset + 1) rest
      | .literal _ | .bar | .star | .amp | .finish =>
        firstErrorFrom o opened (offset + 1) rest := by
  rw [firstErrorFrom.eq_def]
  by_cases hopening : c = '('
  · subst hopening
    rfl
  by_cases hclosing : c = ')'
  · subst hclosing
    rfl
  dsimp only
  rw [if_neg hopening, if_neg hclosing]
  by_cases hknown : (o.dialect.isLiteral c || o.dialect.isSign c) = true
  · rw [if_pos hknown]
    -- neither a bracket nor foreign, so the parser has some token for it
    have hvalid : Token.ofChar o.dialect c ≠ .invalid c := by
      rw [Ne, ofChar_eq_invalid_iff hopening hclosing, hknown]
      exact nofun
    grind [Token.ofChar]
  · rw [if_neg hknown, (ofChar_eq_invalid_iff hopening hclosing).mpr (by simpa using hknown)]

/-- What the scan does at a token. It is the scan over characters once more, cut at the
token that a rule has just seen, so that rules and scan can be compared token by token. -/
def scanStep (o : Options) (opened : Nat) (s : Cursor) : Token → Option SyntaxError
  | .finish =>
    if opened = 0 then none
    else some { kind := .unclosedGroup, offset := s.offset, errors := 1 }
  | .invalid c => some { kind := .invalidCharacter c, offset := s.offset, errors := 1 }
  | .opening =>
    if o.maxDepth ≤ opened then
      some { kind := .tooDeep o.maxDepth, offset := s.offset, errors := 1 }
    else scan o (opened + 1) s.advance
  | .closing =>
    match opened with
    | 0 => some { kind := .unmatchedClose, offset := s.offset, errors := 1 }
    | outer + 1 => scan o outer s.advance
  | .literal _ | .bar | .star | .amp => scan o opened s.advance

/-- What the scan does from a place on is decided by the token there. All rules are
compared with the scan in this form. -/
theorem scan_of_token {t : Token} (h : s.token o.dialect = t) :
    scan o opened s = scanStep o opened s t := by
  obtain ⟨rest, offset, literals⟩ := s
  subst h
  cases rest with
  | nil => rfl
  | cons c rest =>
    show firstErrorFrom o opened offset (c :: rest) =
      scanStep o opened _ (Token.ofChar o.dialect c)
    rw [firstErrorFrom_cons]
    cases h : Token.ofChar o.dialect c with
    | finish => exact absurd h (ofChar_ne_finish _ _)
    | closing => cases opened <;> rfl
    | _ => rfl

-- ---------------------------------------------------------------------------
-- Rules in step with the scan
-- ---------------------------------------------------------------------------

/-- What was read from `s` the scan passes over, and it stops at a token of `stops`; or
reading halted with the error that the scan reports. So the scan need not know where rules
begin and end: it says the same at every place where one of them stops. -/
def InStep (o : Options) (opened : Nat) (stops : Token → Prop) :
    Except Halt (Reading s least) → Prop
  | .ok r => stops (r.stop.token o.dialect) ∧ scan o opened r.stop = scan o opened s
  | .error h => ∃ kind, h.cause = .syntaxError kind ∧
      scan o opened s = some { kind := kind, offset := h.cursor.offset, errors := 1 }

namespace InStep

variable {inner : Nat} {s' : Cursor} {least' : Nat} {P Q : Token → Prop}
  {x : Except Halt (Reading s least)}

/-- Reading on from where a rule stopped. The first rule may have been in more groups, as
long as the scan says the same at both places. -/
theorem bind {f : Reading s least → Except Halt (Reading s' least')}
    (hs : scan o inner s = scan o opened s') (hx : InStep o inner P x)
    (hf : ∀ r : Reading s least, P (r.stop.token o.dialect) →
      scan o inner r.stop = scan o opened s' → InStep o opened Q (f r)) :
    InStep o opened Q (x >>= f) := by
  cases x with
  | error h =>
    obtain ⟨kind, hcause, hscan⟩ := hx
    exact ⟨kind, hcause, hs ▸ hscan⟩
  | ok r => exact hf r hx.1 (hx.2.trans hs)

/-- Going on without reading, or reading what the scan passes over. -/
theorem map {f : Reading s least → Reading s least'} (hx : InStep o opened P x)
    (hf : ∀ r : Reading s least, P (r.stop.token o.dialect) →
      Q ((f r).stop.token o.dialect) ∧ scan o opened (f r).stop = scan o opened r.stop) :
    InStep o opened Q (x.map f) := by
  cases x with
  | error h => exact hx
  | ok r => exact ⟨(hf r hx.1).1, (hf r hx.1).2.trans hx.2⟩

end InStep

namespace Rule

variable {group : GroupReader o.dialect} {origin : Cursor}

-- ---------------------------------------------------------------------------
-- Repetitions
-- ---------------------------------------------------------------------------

/-- An atom is a literal, which the scan passes over, or a group, or nothing at all. In
the last case rule and scan are where they were. -/
theorem inStep_atom
    (hgroup : ∀ s h, InStep o opened (fun _ => True) (group s h)) (s : Cursor) :
    InStep o opened (fun _ => True) (atom group s) := by
  unfold atom
  split
  · rename_i c h
    refine ⟨trivial, ?_⟩
    exact (scan_of_token h).symm
  · rename_i h
    exact (hgroup s h).map fun r _ => ⟨trivial, rfl⟩
  -- an operand that is left out reads nothing
  all_goals exact ⟨trivial, rfl⟩

/-- No star is left behind, and the scan passes over all of them. -/
theorem stars_stop (r : Reading origin least) :
    (stars o.dialect r).stop.token o.dialect ≠ .star ∧
      scan o opened (stars o.dialect r).stop = scan o opened r.stop := by
  fun_induction stars o.dialect r with
  | case1 r h hlt ih =>
    refine ⟨ih.1, ih.2.trans ?_⟩
    exact (scan_of_token h).symm
  | case2 r h => exact ⟨h, rfl⟩

theorem inStep_repetition
    (hgroup : ∀ s h, InStep o opened (fun _ => True) (group s h)) (s : Cursor) :
    InStep o opened (· ≠ .star) (repetition group s) :=
  (inStep_atom hgroup s).map fun r _ => stars_stop r

-- ---------------------------------------------------------------------------
-- Chains of operands
-- ---------------------------------------------------------------------------

/-- Neither a loop over stars nor one over factors goes on. -/
def EndsFactors (t : Token) : Prop := t ≠ .star ∧ t.startsFactor = false

/-- The loop over factors goes on as long as one can begin, so afterwards none can. The
induction is on what is left to read, as every round reads something. -/
theorem inStep_factors (hgroup : ∀ s h, InStep o opened (fun _ => True) (group s h))
    (left : Reading origin least) (hleft : left.stop.token o.dialect ≠ .star)
    (hscan : scan o opened left.stop = scan o opened origin) :
    InStep o opened EndsFactors (factors group left) := by
  generalize hn : left.stop.rest.length = n
  induction n using Nat.strongRecOn generalizing left with
  | ind n ih =>
    rw [factors]
    split
    · rename_i h
      refine (inStep_repetition hgroup left.stop).bind hscan fun right hright hscan' => ?_
      have hle := right.stop_le
      -- a factor that begins here reads one character at least
      have hleast := Cursor.least_eq_one h
      exact ih right.stop.rest.length (by omega) _ hright hscan' rfl
    · rename_i h
      exact ⟨⟨hleft, by simpa using h⟩, hscan⟩

theorem inStep_concatenation (hgroup : ∀ s h, InStep o opened (fun _ => True) (group s h))
    (s : Cursor) : InStep o opened EndsFactors (concatenation group s) :=
  (inStep_repetition hgroup s).bind rfl fun left hleft hscan =>
    inStep_factors hgroup left hleft hscan

/-- The operator is not left behind, and neither is what its operands do not leave behind.
Nothing else has to be known of the operands, which are those of any of the two loops. -/
theorem inStep_operands (op : Operator) {operand : OperandReader o.dialect} {P : Token → Prop}
    (hoperand : ∀ s, InStep o opened P (operand s)) (left : Reading origin least)
    (hleft : P (left.stop.token o.dialect))
    (hscan : scan o opened left.stop = scan o opened origin) :
    InStep o opened (fun t => P t ∧ t ≠ op.token) (operands op operand left) := by
  generalize hn : left.stop.rest.length = n
  induction n using Nat.strongRecOn generalizing left with
  | ind n ih =>
    rw [operands]
    split
    · rename_i h
      have hlt := Cursor.length_advance_lt (h ▸ op.token_ne_finish)
      -- the scan passes over the sign of an operator, whichever it is
      have hpassed : scan o opened left.stop.advance = scan o opened origin := by
        rw [← hscan, scan_of_token h]
        cases op <;> rfl
      refine (hoperand left.stop.advance).bind hpassed fun right hright hscan' => ?_
      have hle := right.stop_le
      exact ih right.stop.rest.length (by omega) _ hright hscan' rfl
    · rename_i h
      exact ⟨⟨hleft, h⟩, hscan⟩

theorem inStep_alternation (hgroup : ∀ s h, InStep o opened (fun _ => True) (group s h))
    (s : Cursor) :
    InStep o opened (fun t => EndsFactors t ∧ t ≠ .bar) (alternation group s) :=
  (inStep_concatenation hgroup s).bind rfl fun left hleft hscan =>
    inStep_operands .bar (inStep_concatenation hgroup) left hleft hscan

theorem inStep_interleaving (hgroup : ∀ s h, InStep o opened (fun _ => True) (group s h))
    (s : Cursor) :
    InStep o opened (fun t => (EndsFactors t ∧ t ≠ .bar) ∧ t ≠ .amp) (interleaving group s) :=
  (inStep_alternation hgroup s).bind rfl fun left hleft hscan =>
    inStep_operands .amp (inStep_alternation hgroup) left hleft hscan

-- ---------------------------------------------------------------------------
-- Groups
-- ---------------------------------------------------------------------------

/-- No expression goes on: neither a factor nor any operator can follow. -/
def EndsExpression (t : Token) : Prop := t = .closing ∨ t = .finish ∨ ∃ c, t = .invalid c

theorem ofChar_ne_amp {d : Dialect} (h : d.hasInterleave = false) (c : Char) :
    Token.ofChar d c ≠ .amp := by
  unfold Token.ofChar
  grind

/-- In a dialect without interleavings no place reads their sign. -/
theorem token_ne_amp (h : o.dialect.hasInterleave = false) (s : Cursor) :
    s.token o.dialect ≠ .amp := by
  obtain ⟨rest, offset, literals⟩ := s
  cases rest with
  | nil => exact nofun
  | cons c rest => exact ofChar_ne_amp h c

/-- At a token that none of the loops goes on with, an expression ends. What is left is a
`)`, the end or an invalid character. -/
theorem endsExpression {t : Token} (hfactors : EndsFactors t) (hbar : t ≠ .bar) (hamp : t ≠ .amp) :
    EndsExpression t := by
  obtain ⟨hstar, hstart⟩ := hfactors
  cases t with
  | literal c => cases hstart
  | opening => cases hstart
  | closing => exact .inl rfl
  | bar => exact absurd rfl hbar
  | star => exact absurd rfl hstar
  | amp => exact absurd rfl hamp
  | invalid c => exact .inr (.inr ⟨c, rfl⟩)
  | finish => exact .inr (.inl rfl)

/-- What is known of where a rule stops may be said in another way. -/
theorem InStep.weaken {P Q : Token → Prop} {x : Except Halt (Reading s least)}
    (hx : InStep o opened P x)
    (h : ∀ r : Reading s least, P (r.stop.token o.dialect) → Q (r.stop.token o.dialect)) :
    InStep o opened Q x := by
  cases x with
  | error e => exact hx
  | ok r => exact ⟨h r hx.1, hx.2⟩

/-- An expression is an interleaving or an alternation, as the dialect has it. In both
cases no token is left that one could go on with. -/
theorem inStep_expression (hgroup : ∀ s h, InStep o opened (fun _ => True) (group s h))
    (s : Cursor) : InStep o opened EndsExpression (expression group s) := by
  unfold expression
  split
  · exact InStep.weaken (inStep_interleaving hgroup s) fun r hr => endsExpression hr.1.1 hr.1.2 hr.2
  · rename_i h
    exact InStep.weaken (inStep_alternation hgroup s) fun r hr =>
      endsExpression hr.1 hr.2 (token_ne_amp (by simpa using h) r.stop)

/-- A token that no rule reads is what the scan reports, if it is not a `)`. At the end it
depends on whether a group is open, which the rules know from where they are. -/
theorem exists_cause_unexpected {stop : Cursor} (hstop : EndsExpression (stop.token o.dialect))
    (hclosing : stop.token o.dialect ≠ .closing)
    (hfinish : opened = 0 → stop.token o.dialect ≠ .finish) :
    ∃ kind, (Halt.unexpected o.dialect stop).cause = .syntaxError kind ∧
      scan o opened stop = some { kind := kind, offset := stop.offset, errors := 1 } := by
  rcases hstop with h | h | ⟨c, h⟩
  · exact absurd h hclosing
  · refine ⟨.unclosedGroup, by simp [Halt.unexpected, h], ?_⟩
    rw [scan_of_token h, scanStep, if_neg fun hopened => hfinish hopened h]
  · exact ⟨.invalidCharacter c, by simp [Halt.unexpected, h], scan_of_token h⟩

/-- A group is one more open group for the scan, until its `)`. If that is missing, what
stands in its place is the error. -/
theorem inStep_groupOf {inside : OperandReader o.dialect}
    (hinside : ∀ s, InStep o (opened + 1) EndsExpression (inside s)) (hopened : opened < o.maxDepth)
    (s : Cursor) (h : s.token o.dialect = .opening) :
    InStep o opened (fun _ => True) (groupOf inside s h) := by
  -- the scan counts the group when it passes its bracket
  have henter : scan o (opened + 1) s.advance = scan o opened s := by
    rw [scan_of_token h, scanStep, if_neg (Nat.not_le.mpr hopened)]
  refine (hinside s.advance).bind henter fun inner hinner hscan => ?_
  split
  · rename_i hclosing
    refine ⟨trivial, ?_⟩
    rw [← hscan, scan_of_token hclosing]
    rfl
  · rename_i hclosing
    obtain ⟨kind, hcause, hreport⟩ :=
      exists_cause_unexpected hinner hclosing fun hzero => absurd hzero (Nat.succ_ne_zero opened)
    exact ⟨kind, hcause, hscan ▸ hreport⟩

/-- Every rule keeps in step with the scan, `room` being the groups that can still be
opened. The induction is on that number: a group is read with less room inside. -/
theorem inStep_regexp (room : Nat) (hroom : opened + room = o.maxDepth) (s : Cursor) :
    InStep o opened EndsExpression (regexp o.dialect o.maxDepth room s) := by
  induction room generalizing opened s with
  | zero =>
    refine inStep_expression (fun s h => ?_) s
    refine ⟨.tooDeep o.maxDepth, rfl, ?_⟩
    rw [scan_of_token h, scanStep, if_pos (by omega)]
    rfl
  | succ room ih =>
    exact inStep_expression
      (inStep_groupOf (fun s => ih (by omega) s) (by omega)) s

end Rule

-- ---------------------------------------------------------------------------
-- Whole patterns
-- ---------------------------------------------------------------------------

/-- A pattern is read exactly if the scan finds no error, and halts with what it finds. A
whole expression stops at a `)`, at the end or at an invalid character, and only the end
is no error. -/
theorem readAll_eq (o : Options) (pattern : List Char) :
    match firstErrorFrom o 0 0 pattern with
    | none => ∃ r, readAll o pattern = .ok r
    | some e => ∃ h, readAll o pattern = .error h ∧ h.compileError = .rejected e := by
  have hstep : InStep o 0 Rule.EndsExpression _ :=
    Rule.inStep_regexp o.maxDepth (Nat.zero_add _) { rest := pattern }
  rw [readAll]
  show match scan o 0 { rest := pattern } with | none => _ | some e => _
  cases hr : Rule.regexp o.dialect o.maxDepth o.maxDepth { rest := pattern } with
  | error h =>
    rw [hr] at hstep
    obtain ⟨kind, hcause, hscan⟩ := hstep
    rw [hscan]
    refine ⟨h, rfl, ?_⟩
    unfold Halt.compileError
    rw [hcause]
  | ok r =>
    rw [hr] at hstep
    obtain ⟨hstop, hscan⟩ := hstep
    rw [← hscan, ok_bind]
    -- where the expression stopped
    rcases hstop with h | h | ⟨c, h⟩
    · rw [scan_of_token h, h]
      exact ⟨_, rfl, rfl⟩
    · rw [scan_of_token h, h]
      exact ⟨_, rfl⟩
    · rw [scan_of_token h, h]
      refine ⟨_, rfl, ?_⟩
      simp [Halt.compileError, Halt.unexpected, h]

/-- The same, said of the outcome of reading: there is an expression exactly if the scan
reports nothing, and otherwise the error is the one that the scan reports. -/
theorem read_eq (o : Options) (pattern : String) :
    match firstError? o pattern with
    | none => ∃ body, (read o pattern).result = .ok body
    | some e => ∃ h, (read o pattern).result = .error h ∧ h.compileError = .rejected e := by
  have hall := readAll_eq o pattern.toList
  rw [firstError?]
  cases hscan : firstErrorFrom o 0 0 pattern.toList with
  | none =>
    rw [hscan] at hall
    obtain ⟨⟨body, stop⟩, hr⟩ := hall
    exact ⟨body, by rw [read, hr]⟩
  | some e =>
    rw [hscan] at hall
    obtain ⟨h, hr, he⟩ := hall
    exact ⟨h, by rw [read, hr], he⟩

/-- A pattern compiles if the scan finds no error. -/
theorem exists_compile_eq_ok {o : Options} {pattern : String} (h : firstError? o pattern = none) :
    ∃ body, compile o pattern = .ok (.ofExpr pattern o.dialect body) := by
  have hread := read_eq o pattern
  rw [h] at hread
  obtain ⟨body, hbody⟩ := hread
  exact ⟨body, compile_eq_ok_iff.mpr ⟨body, hbody, rfl⟩⟩

/-- What the scan finds is why a pattern is rejected. -/
theorem compile_eq_error {o : Options} {pattern : String} {e : SyntaxError}
    (h : firstError? o pattern = some e) : compile o pattern = .error (.rejected e) := by
  have hread := read_eq o pattern
  rw [h] at hread
  obtain ⟨halt, hhalt, he⟩ := hread
  unfold compile Outcome.tree
  rw [hhalt, ← he]

/-- The errors of one scan, each of which is counted once. -/
theorem errors_firstErrorFrom {e : SyntaxError} {offset : Nat} {l : List Char}
    (h : firstErrorFrom o opened offset l = some e) : e.errors = 1 := by
  fun_induction firstErrorFrom o opened offset l <;> grind

/-- **Parsing is a scan**: the outcome of parsing is that of the scan for brackets and
foreign characters. No rule of the grammar is mentioned on the other side, so this is what
may be told to someone who writes patterns. -/
theorem Parser.parse_eq_scan (p : Parser) (pattern : String) :
    match firstError? p.options pattern with
    | none => ∃ t, (p.parse pattern).1 = .ok t ∧ (p.parse pattern).2.errors = 0
    | some e => (p.parse pattern).1 = .error (.rejected e) ∧
        (p.parse pattern).2.error? = some e ∧ (p.parse pattern).2.errors = 1 := by
  have hread := read_eq p.options pattern
  cases hscan : firstError? p.options pattern with
  | none =>
    rw [hscan] at hread
    obtain ⟨body, hbody⟩ := hread
    have htree : (read p.options pattern).tree p.options pattern =
        .ok (.ofExpr pattern p.options.dialect body) := compile_eq_ok_iff.mpr ⟨body, hbody, rfl⟩
    refine ⟨.ofExpr pattern p.options.dialect body, htree, ?_⟩
    rw [parse, htree]
    rfl
  | some e =>
    rw [hscan] at hread
    obtain ⟨h, hhalt, he⟩ := hread
    -- no tree is made where the reader has halted
    have htree : (read p.options pattern).tree p.options pattern = .error (.rejected e) := by
      unfold Outcome.tree
      rw [hhalt, ← he]
    refine ⟨htree, ?_⟩
    rw [parse, htree]
    exact ⟨rfl, errors_firstErrorFrom hscan⟩

end PatternAutomata
