import PatternAutomata.Expr.Pattern
import PatternAutomata.ParseTree.Expression
import PatternAutomata.Proofs.Parser.Scan

/-!
# Pattern automata — reading undoes writing

An expression that is written with no more brackets than it needs is read back as
the same expression. Operators group to the left, so a rule that has read a left
operand may have to go on: what a text says is stated as the state from which the
loop of its rule goes on (`Continues`), and only what follows the text decides
whether the loop ends there (`Reads`).

A text is as strong as the rule that reads it: repetitions are strength 3,
concatenations 2, alternatives 1 and interleavings 0, the strengths of `Expr`. A
text of one strength serves at all weaker places (`AtStrength.mono`), and in
brackets at all. That leaves one step per operator.

## Results

* `Balanced.append`, `Balanced.brackets` — the nesting of a text from its parts.
* `ReadsGroup.atStrength` — what is read as a group serves everywhere.
* `AtStrength.star`, `AtStrength.concat`, `Continues.operator` — one step per operator.
* `atStrength_pattern` — the pattern of an expression is as strong as the expression.
* `reads_regexp`       — a whole expression is read back, if its groups are not too deep.
* `compile_pattern`    — so its pattern compiles to its tree.
-/

namespace PatternAutomata

-- ---------------------------------------------------------------------------
-- Nesting
-- ---------------------------------------------------------------------------

/-- The deepest nesting is no less than the one to begin with, as it is one of those that
are seen. -/
theorem le_deepestFrom (opened : Nat) (text : List Char) : opened ≤ deepestFrom opened text := by
  induction text generalizing opened with
  | nil => exact Nat.le_refl opened
  | cons c text ih =>
    unfold deepestFrom
    split
    · exact Nat.le_of_succ_le (ih (opened + 1))
    · split
      · exact Nat.le_max_left ..
      · exact ih opened

/-- Every bracket of the text has its match in it, so what follows is as deep as what is
before. The text may stand at any nesting and before anything: that is what lets texts be
put together. -/
def Balanced (text : List Char) : Prop :=
  ∀ opened rest, deepestFrom opened (text ++ rest) =
    max (opened + nesting text) (deepestFrom opened rest)

theorem balanced_nil : Balanced [] := fun opened rest =>
  (Nat.max_eq_right (le_deepestFrom opened rest)).symm

theorem deepestFrom_cons {c : Char} (hopen : c ≠ '(') (hclose : c ≠ ')') (opened : Nat)
    (rest : List Char) : deepestFrom opened (c :: rest) = deepestFrom opened rest := by
  rw [deepestFrom, if_neg hopen, if_neg hclose]

theorem balanced_singleton {c : Char} (hopen : c ≠ '(') (hclose : c ≠ ')') : Balanced [c] := by
  have hnesting : nesting [c] = 0 := deepestFrom_cons hopen hclose 0 []
  intro opened rest
  rw [List.singleton_append, deepestFrom_cons hopen hclose, hnesting]
  exact balanced_nil opened rest

theorem deepestFrom_nil (opened : Nat) : deepestFrom opened [] = opened := rfl

section Parts

variable {text more : List Char}

/-- What is behind a balanced text begins at the nesting where that began. -/
theorem nesting_append (h : Balanced text) : nesting (text ++ more) =
    max (nesting text) (nesting more) := by
  have hfrom := h 0 more
  rwa [Nat.zero_add] at hfrom

/-- A sign between two texts is as deep as they are. -/
theorem nesting_operator {c : Char} (hopen : c ≠ '(') (hclose : c ≠ ')') (h : Balanced text) :
    nesting (text ++ c :: more) = max (nesting text) (nesting more) := by
  rw [nesting_append h]
  exact congrArg _ (deepestFrom_cons hopen hclose 0 more)

theorem Balanced.append (h : Balanced text) (h' : Balanced more) : Balanced (text ++ more) := by
  intro opened rest
  rw [List.append_assoc, h, h', nesting_append h]
  omega

/-- In brackets a text is one deeper, and behind them the nesting is what it was. So the
nesting of a pattern is found from that of its parts. -/
theorem deepestFrom_brackets (h : Balanced text) (opened : Nat) (rest : List Char) :
    deepestFrom opened ('(' :: text ++ [')'] ++ rest) =
      max (opened + (nesting text + 1)) (deepestFrom opened rest) := by
  -- the two brackets are read one at a time, as the text between them is not known
  have hopen : deepestFrom opened ('(' :: text ++ [')'] ++ rest) =
      deepestFrom (opened + 1) (text ++ ')' :: rest) := by
    rw [List.append_assoc, List.singleton_append]
    rfl
  have hclose : deepestFrom (opened + 1) (')' :: rest) =
      max (opened + 1) (deepestFrom opened rest) := rfl
  rw [hopen, h, hclose]
  omega

theorem nesting_brackets (h : Balanced text) :
    nesting ('(' :: text ++ [')']) = nesting text + 1 := by
  have hfrom := deepestFrom_brackets h 0 []
  rw [List.append_nil, deepestFrom_nil] at hfrom
  rw [nesting, hfrom]
  omega

theorem Balanced.brackets (h : Balanced text) : Balanced ('(' :: text ++ [')']) := by
  intro opened rest
  rw [deepestFrom_brackets h, nesting_brackets h]

end Parts

-- ---------------------------------------------------------------------------
-- Literals
-- ---------------------------------------------------------------------------

/-- A literal is neither a bracket nor an operator of its dialect. The signs are tried one
after the other, and each of them is refused since it is no literal itself. -/
theorem ofChar_of_isLiteral {d : Dialect} {c : Char} (h : d.isLiteral c = true) :
    Token.ofChar d c = .literal c := by
  have hnot : ∀ x, d.isLiteral x = false → c ≠ x := by
    rintro x hx rfl
    exact Bool.false_ne_true (hx.symm.trans h)
  have hamp : ¬ (c = '&' ∧ d.hasInterleave = true) := by
    rintro ⟨rfl, hinterleave⟩
    simp [Dialect.isLiteral, hinterleave] at h
  unfold Token.ofChar
  rw [if_neg (hnot '(' (by cases d <;> decide)), if_neg (hnot ')' (by cases d <;> decide)),
    if_neg (hnot '|' (by cases d <;> decide)), if_neg (hnot '*' (by cases d <;> decide)),
    if_neg hamp, if_pos h]

theorem ofChar_amp {d : Dialect} (h : d.hasInterleave = true) : Token.ofChar d '&' = .amp := by
  cases d with
  | plain => exact nomatch h
  | parallel => rfl

theorem balanced_literal {d : Dialect} {c : Char} (h : d.isLiteral c = true) : Balanced [c] := by
  refine balanced_singleton ?_ ?_ <;> rintro rfl <;> cases d <;> exact absurd h (by decide)

namespace Expr

theorem eq_epsilon {e : Expr Char} (h : e.isEpsilon = true) : e = .epsilon := by
  cases e with
  | epsilon => rfl
  | _ => exact nomatch h

/-- Brackets that are put around an operand match. -/
theorem balanced_operandText {least strength : Nat} {text : List Char} (h : Balanced text) :
    Balanced (operandText least strength text) := by
  unfold operandText
  split
  · exact h.brackets
  · exact h

/-- And so do those that stand for a factor that is left out. -/
theorem balanced_factorText {least strength : Nat} {isEpsilon : Bool} {text : List Char}
    (h : Balanced text) : Balanced (factorText least strength isEpsilon text) := by
  unfold factorText
  split
  · exact balanced_nil.brackets
  · exact balanced_operandText h

/-- All brackets of a written expression match, at every depth, by induction on the
expression. -/
theorem balanced_pattern {d : Dialect} {e : Expr Char} (h : e.isWrittenIn d = true) :
    Balanced e.pattern := by
  induction e with
  | epsilon => exact balanced_nil
  | leaf c => exact balanced_literal h
  | concat l r ihl ihr =>
    obtain ⟨hl, hr⟩ := Bool.and_eq_true_iff.mp h
    exact (balanced_factorText (ihl hl)).append (balanced_factorText (ihr hr))
  | union l r ihl ihr =>
    obtain ⟨hl, hr⟩ := Bool.and_eq_true_iff.mp h
    exact (balanced_operandText (ihl hl)).append
      ((balanced_singleton (by decide) (by decide)).append (balanced_operandText (ihr hr)))
  | shuffle l r ihl ihr =>
    -- that the dialect has interleavings does not matter for brackets
    obtain ⟨-, hlr⟩ := Bool.and_eq_true_iff.mp h
    obtain ⟨hl, hr⟩ := Bool.and_eq_true_iff.mp hlr
    exact (balanced_operandText (ihl hl)).append
      ((balanced_singleton (by decide) (by decide)).append (balanced_operandText (ihr hr)))
  | star e ih =>
    exact (balanced_factorText (ih h)).append (balanced_singleton (by decide) (by decide))

end Expr

namespace Rule

variable {d : Dialect} {group : GroupReader d} {rule operand : OperandReader d}
  {loop : (s : Cursor) → Reading s (s.least d) → Except Halt (Reading s (s.least d))}
  {stops : Token → Prop} {text more : List Char} {e l r : Expr Char} {room : Nat}

-- ---------------------------------------------------------------------------
-- What a text is read as
-- ---------------------------------------------------------------------------

/-- The rule reads the text as `e`, whatever is behind it, and then its loop goes on. In
this form a text can be the left operand of a longer one, which the same round of the rule
reads. -/
def Continues (rule : OperandReader d)
    (loop : (s : Cursor) → Reading s (s.least d) → Except Halt (Reading s (s.least d)))
    (stops : Token → Prop) (text : List Char) (e : Expr Char) : Prop :=
  ∀ s rest, s.rest = text ++ rest → stops (Token.ofRest d rest) →
    ∃ r : Reading s (s.least d), rule s = loop s r ∧ r.expr = e ∧ r.stop.rest = rest

/-- The rule reads the text as `e` and stops behind it: the case of no loop. -/
def Reads (rule : OperandReader d) (stops : Token → Prop) (text : List Char) (e : Expr Char) :
    Prop :=
  Continues rule (fun _ r => .ok r) stops text e

/-- What stands behind a reading is the first token of what is left. -/
theorem token_stop {s : Cursor} {least : Nat} {r : Reading s least} {rest : List Char}
    (h : r.stop.rest = rest) : r.stop.token d = Token.ofRest d rest := h ▸ rfl

/-- Where the loop ends the rule stops. The tokens at which the loop ends are among those
that may follow the text. -/
theorem Continues.reads {stops' : Token → Prop} (h : Continues rule loop stops text e)
    (hstops : ∀ t, stops' t → stops t)
    (hloop : ∀ s r, stops' (r.stop.token d) → loop s r = .ok r) :
    Reads rule stops' text e := by
  intro s rest hs hrest
  obtain ⟨r, hr, he, hstop⟩ := h s rest hs (hstops _ hrest)
  exact ⟨r, hr.trans (hloop s r (token_stop hstop ▸ hrest)), he, hstop⟩

/-- A rule that begins with another one goes on where that one stops. -/
theorem Reads.continues (h : Reads operand stops text e)
    (hrule : ∀ s, rule s = operand s >>= loop s) : Continues rule loop stops text e := by
  intro s rest hs hrest
  obtain ⟨r, hr, he, hstop⟩ := h s rest hs hrest
  exact ⟨r, by rw [hrule, hr, ok_bind], he, hstop⟩

/-- The group reader reads the text in brackets as `e`. -/
def ReadsGroup (group : GroupReader d) (text : List Char) (e : Expr Char) : Prop :=
  ∀ s (h : s.token d = .opening) rest, s.rest = '(' :: text ++ ')' :: rest →
    ∃ r, group s h = .ok r ∧ r.expr = e ∧ r.stop.rest = rest

/-- The group reader reads back what is not nested too deep. It is all that the rules of
one depth have to know of those one deeper. -/
def ReadsGroups (group : GroupReader d) (room : Nat) : Prop :=
  ∀ e : Expr Char, e.isWrittenIn d = true → nesting e.pattern < room → ReadsGroup group e.pattern e

-- ---------------------------------------------------------------------------
-- Where loops end
-- ---------------------------------------------------------------------------

/-- No loop over stars, factors or alternatives goes on. -/
def EndsAlternatives (t : Token) : Prop := EndsFactors t ∧ t ≠ .bar

theorem EndsExpression.endsAlternatives {t : Token} (h : EndsExpression t) :
    EndsAlternatives t := by
  obtain rfl | rfl | ⟨c, rfl⟩ := h <;> exact ⟨⟨by simp, rfl⟩, by simp⟩

theorem EndsExpression.ne_amp {t : Token} (h : EndsExpression t) : t ≠ .amp := by
  obtain rfl | rfl | ⟨c, rfl⟩ := h <;> simp

-- ---------------------------------------------------------------------------
-- Strengths
-- ---------------------------------------------------------------------------

/-- The text is read as `e` by the rule of a strength. The four rules differ in the loop
that goes on behind the text and in the tokens that may follow it. -/
def AtStrength (group : GroupReader d) : Nat → List Char → Expr Char → Prop
  | 0 => Continues (interleaving group) (fun _ => operands .amp (alternation group))
      EndsAlternatives
  | 1 => Continues (alternation group) (fun _ => operands .bar (concatenation group)) EndsFactors
  | 2 => Continues (concatenation group) (fun _ => factors group) (· ≠ .star)
  | _ => Continues (repetition group) (fun _ r => .ok (stars d r)) (fun _ => True)

theorem AtStrength.reads_repetition (h : AtStrength group 3 text e) :
    Reads (repetition group) (· ≠ .star) text e := by
  have hcontinues : Continues (repetition group) (fun _ r => .ok (stars d r)) (fun _ => True)
    text e := h
  exact hcontinues.reads (fun _ _ => trivial) fun _ _ hstop => congrArg _ (stars_of_ne hstop)

/-- A concatenation ends where no factor follows. -/
theorem AtStrength.reads_concatenation (h : AtStrength group 2 text e) :
    Reads (concatenation group) EndsFactors text e := by
  have hcontinues : Continues (concatenation group) (fun _ => factors group) (· ≠ .star)
    text e := h
  exact hcontinues.reads (fun _ hstop => hstop.1) fun _ _ hstop =>
    factors_of_not_startsFactor hstop.2

theorem AtStrength.reads_alternation (h : AtStrength group 1 text e) :
    Reads (alternation group) EndsAlternatives text e :=
  Continues.reads h (fun _ hstop => hstop.1) fun _ _ hstop => operands_of_ne hstop.2

theorem AtStrength.reads_interleaving (h : AtStrength group 0 text e) :
    Reads (interleaving group) EndsExpression text e :=
  Continues.reads h (fun _ hstop => hstop.endsAlternatives) fun _ _ hstop =>
    operands_of_ne hstop.ne_amp

theorem Reads.atOne (h : Reads (concatenation group) EndsFactors text e) :
    AtStrength group 1 text e := h.continues fun _ => rfl

theorem Reads.atZero (h : Reads (alternation group) EndsAlternatives text e) :
    AtStrength group 0 text e := h.continues fun _ => rfl

/-- A text of one strength serves at weaker places: it is a list of one operand for the
loop there. One rule of the grammar lies between two strengths that follow each other. -/
theorem AtStrength.mono {strength weaker : Nat} (h : AtStrength group strength text e)
    (hle : weaker ≤ strength) : AtStrength group weaker text e := by
  have hstep : ∀ k, AtStrength group (k + 1) text e → AtStrength group k text e := by
    intro k hk
    match k with
    | 0 => exact hk.reads_alternation.atZero
    | 1 => exact hk.reads_concatenation.atOne
    | 2 => exact hk.reads_repetition.continues fun _ => rfl
    | k + 3 => exact hk
  induction hle with
  | refl => exact h
  | step _ ih => exact ih (hstep _ h)

/-- Where `&` is no operator, there is never one to go on with. So both dialects are read
alike. -/
theorem expression_eq_interleaving : expression group = interleaving group := by
  unfold expression
  split
  · rfl
  · rename_i hinterleave
    funext s
    unfold interleaving
    cases alternation group s with
    | error halt => rfl
    | ok r =>
      have hne := token_ne_amp (o := { dialect := d }) (eq_false_of_ne_true hinterleave) r.stop
      rw [ok_bind, operands_of_ne hne]

theorem AtStrength.reads_expression {strength : Nat} (h : AtStrength group strength text e) :
    Reads (expression group) EndsExpression text e := by
  rw [expression_eq_interleaving]
  exact (h.mono (Nat.zero_le strength)).reads_interleaving

-- ---------------------------------------------------------------------------
-- One step per operator
-- ---------------------------------------------------------------------------

/-- What is left out is `ε`. No factor may begin there, and no star may follow, since the
star would repeat what is left out. -/
theorem reads_epsilon : Reads (concatenation group) EndsFactors [] .epsilon := by
  intro s rest hs hrest
  have htoken : s.token d = Token.ofRest d rest := congrArg (Token.ofRest d) hs
  obtain ⟨hstar, hstart⟩ := hrest
  rw [← htoken] at hstar hstart
  obtain ⟨r, hr, he, hstop⟩ := atom_of_not_startsFactor group hstart
  refine ⟨r, ?_, he, by rw [hstop]; exact hs⟩
  rw [concatenation, repetition, hr]
  show factors group (stars d r) = .ok r
  rw [stars_of_ne (by rw [hstop]; exact hstar),
    factors_of_not_startsFactor (by rw [hstop]; exact hstart)]

/-- A literal is the strongest text: whatever comes behind it, it is read as a factor on
its own. -/
theorem atStrength_literal {c : Char} (h : d.isLiteral c = true) :
    AtStrength group 3 [c] (.leaf c) := by
  intro s rest hs _
  have htoken : s.token d = .literal c := by
    rw [Cursor.token, hs]
    exact ofChar_of_isLiteral h
  obtain ⟨r, hr, he, hstop⟩ := atom_of_literal group htoken
  refine ⟨r, by rw [repetition, hr]; rfl, he, ?_⟩
  rw [hstop]
  exact congrArg List.tail hs

/-- In brackets an expression serves everywhere, so an operand that is too weak is written
in them. -/
theorem ReadsGroup.atStrength (h : ReadsGroup group text e) :
    AtStrength group 3 ('(' :: text ++ [')']) e := by
  intro s rest hs _
  rw [List.append_assoc, List.singleton_append] at hs
  have htoken : s.token d = .opening := by
    rw [Cursor.token, hs]
    rfl
  obtain ⟨inner, hinner, hexpr, hstop⟩ := h s htoken rest hs
  obtain ⟨f, hatom, hf⟩ := atom_of_opening group htoken
  obtain ⟨hexpr', hstop'⟩ := hf inner
  exact ⟨f inner, by rw [repetition, hatom, hinner]; rfl, hexpr'.trans hexpr,
    (congrArg _ hstop').trans hstop⟩

/-- A star behind a repetition repeats all of it, earlier stars included. So no brackets
are needed between stars. -/
theorem AtStrength.star (h : AtStrength group 3 text e) :
    AtStrength group 3 (text ++ ['*']) (.star e) := by
  intro s rest hs _
  obtain ⟨r, hr, he, hstop⟩ := h s ('*' :: rest) (by simpa using hs) trivial
  have htoken : r.stop.token d = .star := token_stop hstop
  obtain ⟨r', hloop, hexpr, hstop'⟩ := stars_of_eq htoken
  refine ⟨r', hr.trans (congrArg Except.ok hloop), by rw [hexpr, he], ?_⟩
  rw [hstop']
  exact congrArg List.tail hstop

/-- One more factor. The right one must be recognisable by its first token, as nothing
stands between the factors; a factor that is left out would not be seen. -/
theorem AtStrength.concat (hl : AtStrength group 2 text l) (hr : AtStrength group 3 more r)
    (hstarts : ∀ rest, (Token.ofRest d (more ++ rest)).startsFactor = true) :
    AtStrength group 2 (text ++ more) (.concat l r) := by
  intro s rest hs hrest
  -- a star would repeat the left operand, and no factor begins with one
  have hstar : Token.ofRest d (more ++ rest) ≠ .star := by
    intro h
    have hstart := hstarts rest
    rw [h] at hstart
    exact nomatch hstart
  obtain ⟨left, hleft, hexpr, hstop⟩ := hl s (more ++ rest) (by simpa using hs) hstar
  have hstart : (left.stop.token d).startsFactor = true := token_stop hstop ▸ hstarts rest
  obtain ⟨right, hright, hexpr', hstop'⟩ := hr.reads_repetition left.stop rest hstop hrest
  obtain ⟨f, hloop, hf⟩ := factors_of_startsFactor group hstart
  refine ⟨f right, hleft.trans (hloop.trans (by rw [hright, ok_bind])), ?_, ?_⟩
  · rw [(hf right).1, hexpr, hexpr']
  · rw [(hf right).2, hstop']

/-- One more operand behind a sign that the operands do not read. Both `|` and `&` are
signs of that kind, each for the operands of its own loop. -/
theorem Continues.operator {op : Operator} {c : Char}
    (hl : Continues rule (fun _ => operands op operand) stops text l)
    (hr : Reads operand stops more r) (hc : Token.ofChar d c = op.token) (hstops : stops op.token) :
    Continues rule (fun _ => operands op operand) stops (text ++ c :: more) (op.apply l r) := by
  intro s rest hs hrest
  obtain ⟨left, hleft, hexpr, hstop⟩ := hl s (c :: (more ++ rest)) (by simpa using hs)
    (show stops (Token.ofChar d c) from hc ▸ hstops)
  obtain ⟨f, hloop, hf⟩ := operands_of_eq operand ((token_stop hstop).trans hc)
  have hadvance : left.stop.advance.rest = more ++ rest := congrArg List.tail hstop
  obtain ⟨right, hright, hexpr', hstop'⟩ := hr left.stop.advance rest hadvance hrest
  refine ⟨f right, hleft.trans (hloop.trans (by rw [hright, ok_bind])), ?_, ?_⟩
  · rw [(hf right).1, hexpr, hexpr']
  · rw [(hf right).2, hstop']

-- ---------------------------------------------------------------------------
-- Written expressions
-- ---------------------------------------------------------------------------

/-- A factor starts one: with a bracket, with a literal, or with what the body of its star
starts with. -/
theorem startsFactor_factorText (he : e.isWrittenIn d = true) (rest : List Char) :
    (Token.ofRest d (Expr.factorText 3 e.strength e.isEpsilon e.pattern ++ rest)).startsFactor =
      true := by
  induction e generalizing rest with
  | epsilon => rfl
  | leaf c =>
    show (Token.ofChar d c).startsFactor = true
    rw [ofChar_of_isLiteral he]
    rfl
  | concat l r _ _ => rfl
  | union l r _ _ => rfl
  | shuffle l r _ _ => rfl
  -- a star is written behind its body, so the body begins the text
  | star e ih =>
    show (Token.ofRest d
      (Expr.factorText 3 e.strength e.isEpsilon e.pattern ++ ['*'] ++ rest)).startsFactor = true
    rw [List.append_assoc]
    exact ih he _

/-- An alternative may be left out, and an operand of `&` may be. So here `ε` needs no
brackets. -/
theorem atStrength_of_le {least : Nat}
    (hpattern : e.isEpsilon = false → AtStrength group e.strength e.pattern e)
    (hleast : least ≤ 1) (hstrong : least ≤ e.strength) : AtStrength group least e.pattern e := by
  cases hepsilon : e.isEpsilon with
  | true =>
    obtain rfl := Expr.eq_epsilon hepsilon
    exact AtStrength.mono reads_epsilon.atOne hleast
  | false => exact (hpattern hepsilon).mono hstrong

section Written

variable (hgroup : ReadsGroups group room) {least : Nat}

include hgroup

/-- An operand is written in brackets if it is too weak for its place. The brackets use up
one level of nesting, which the room allows for. -/
theorem atStrength_operandText (he : e.isWrittenIn d = true)
    (hpattern : nesting e.pattern ≤ room → AtStrength group e.strength e.pattern e)
    (hleast : least ≤ 3) (hroom : nesting (Expr.operandText least e.strength e.pattern) ≤ room) :
    AtStrength group least (Expr.operandText least e.strength e.pattern) e := by
  unfold Expr.operandText at hroom ⊢
  split at hroom
  · rename_i hweak
    rw [nesting_brackets (Expr.balanced_pattern he)] at hroom
    rw [if_pos hweak]
    exact (hgroup _ he hroom).atStrength.mono hleast
  · rename_i hstrong
    rw [if_neg hstrong]
    exact (hpattern hroom).mono (Nat.le_of_not_lt hstrong)

/-- A factor that would be left out is written as a group; the others are written as
operands. -/
theorem atStrength_factorText (he : e.isWrittenIn d = true)
    (hpattern : e.isEpsilon = false → nesting e.pattern ≤ room →
      AtStrength group e.strength e.pattern e)
    (hleast : least ≤ 3)
    (hroom : nesting (Expr.factorText least e.strength e.isEpsilon e.pattern) ≤ room) :
    AtStrength group least (Expr.factorText least e.strength e.isEpsilon e.pattern) e := by
  cases hepsilon : e.isEpsilon with
  | true =>
    obtain rfl := Expr.eq_epsilon hepsilon
    exact (hgroup _ he hroom).atStrength.mono hleast
  | false =>
    rw [hepsilon] at hroom
    exact atStrength_operandText hgroup he (hpattern hepsilon) hleast hroom

/-- The left operand of `|`, and both operands of `&`: an alternation, where `ε` may be
left out. -/
theorem atStrength_alternatives (he : e.isWrittenIn d = true)
    (hpattern : e.isEpsilon = false → nesting e.pattern ≤ room →
      AtStrength group e.strength e.pattern e)
    (hleast : least ≤ 1) (hroom : nesting (Expr.operandText least e.strength e.pattern) ≤ room) :
    AtStrength group least (Expr.operandText least e.strength e.pattern) e := by
  unfold Expr.operandText at hroom ⊢
  split at hroom
  · rename_i hweak
    rw [nesting_brackets (Expr.balanced_pattern he)] at hroom
    rw [if_pos hweak]
    exact (hgroup e he hroom).atStrength.mono (by omega)
  · rename_i hstrong
    rw [if_neg hstrong]
    exact atStrength_of_le (fun hepsilon => hpattern hepsilon hroom) hleast
      (Nat.le_of_not_lt hstrong)

/-- The right operand of `|` is a concatenation, as alternatives group to the left. A
weaker one stands in brackets, and an operand that is left out is read as `ε`. -/
theorem reads_alternative (he : e.isWrittenIn d = true)
    (hpattern : e.isEpsilon = false → nesting e.pattern ≤ room →
      AtStrength group e.strength e.pattern e)
    (hroom : nesting (Expr.operandText 2 e.strength e.pattern) ≤ room) :
    Reads (concatenation group) EndsFactors (Expr.operandText 2 e.strength e.pattern) e := by
  cases hepsilon : e.isEpsilon with
  | true =>
    obtain rfl := Expr.eq_epsilon hepsilon
    exact reads_epsilon
  | false =>
    have hstrong := atStrength_operandText hgroup he (hpattern hepsilon) (by omega) hroom
    exact hstrong.reads_concatenation

/-- The pattern of an expression is as strong as the expression; only `ε` has none. The
induction is on the expression: its operands are as strong as they are written, and one
step puts them together. -/
theorem atStrength_pattern (he : e.isWrittenIn d = true) (hepsilon : e.isEpsilon = false)
    (hroom : nesting e.pattern ≤ room) : AtStrength group e.strength e.pattern e := by
  induction e with
  | epsilon => exact nomatch hepsilon
  | leaf c => exact atStrength_literal he
  | concat l r ihl ihr =>
    obtain ⟨hl, hr⟩ := Bool.and_eq_true_iff.mp he
    -- the nesting of the parts is no more than the one of the whole
    rw [Expr.pattern, nesting_append (Expr.balanced_factorText (Expr.balanced_pattern hl))] at hroom
    exact (atStrength_factorText hgroup hl (ihl hl) (by omega) (by omega)).concat
      (atStrength_factorText hgroup hr (ihr hr) (by omega) (by omega))
      (startsFactor_factorText hr)
  | union l r ihl ihr =>
    obtain ⟨hl, hr⟩ := Bool.and_eq_true_iff.mp he
    rw [Expr.pattern, nesting_operator (by decide) (by decide)
      (Expr.balanced_operandText (Expr.balanced_pattern hl))] at hroom
    have hleft := atStrength_alternatives hgroup hl (ihl hl) (Nat.le_refl 1) (by omega)
    exact Continues.operator hleft (reads_alternative hgroup hr (ihr hr) (by omega)) rfl
      ⟨nofun, rfl⟩
  | shuffle l r ihl ihr =>
    obtain ⟨hinterleave, hlr⟩ := Bool.and_eq_true_iff.mp he
    obtain ⟨hl, hr⟩ := Bool.and_eq_true_iff.mp hlr
    rw [Expr.pattern, nesting_operator (by decide) (by decide)
      (Expr.balanced_operandText (Expr.balanced_pattern hl))] at hroom
    have hleft := atStrength_alternatives hgroup hl (ihl hl) (Nat.zero_le 1) (by omega)
    have hright := atStrength_alternatives hgroup hr (ihr hr) (Nat.le_refl 1) (by omega)
    exact Continues.operator hleft hright.reads_alternation (ofChar_amp hinterleave)
      ⟨⟨nofun, rfl⟩, nofun⟩
  | star e ih =>
    have hbody : e.isWrittenIn d = true := he
    have hbalanced := Expr.balanced_pattern hbody
    rw [Expr.pattern, nesting_append (Expr.balanced_factorText hbalanced)] at hroom
    exact (atStrength_factorText hgroup hbody (ih hbody) (Nat.le_refl 3) (by omega)).star

/-- A written expression is read back at the outermost place, `ε` among them. -/
theorem reads_expression (he : e.isWrittenIn d = true) (hroom : nesting e.pattern ≤ room) :
    Reads (expression group) EndsExpression e.pattern e :=
  (atStrength_of_le (fun hepsilon => atStrength_pattern hgroup he hepsilon hroom)
    (Nat.zero_le 1) (Nat.zero_le e.strength)).reads_expression

end Written

-- ---------------------------------------------------------------------------
-- Groups
-- ---------------------------------------------------------------------------

/-- What is inside stops at the `)`, so a group is read if its inside is. The brackets
leave no trace in the expression. -/
theorem readsGroup_groupOf (h : Reads rule EndsExpression text e) :
    ReadsGroup (groupOf rule) text e := by
  intro s hopening rest hs
  obtain ⟨inner, hinner, hexpr, hstop⟩ :=
    h s.advance (')' :: rest) (congrArg List.tail hs) (.inl rfl)
  obtain ⟨r, hr, hexpr', hstop'⟩ :=
    groupOf_of_closing (h := hopening) hinner (token_stop (d := d) hstop)
  refine ⟨r, hr, hexpr'.trans hexpr, ?_⟩
  rw [hstop']
  exact congrArg List.tail hstop

/-- A whole expression is read back if its groups are not nested too deep. The induction
is on the depth that is left, and the groups at depth zero are never come to. -/
theorem reads_regexp (limit : Nat) (he : e.isWrittenIn d = true)
    (hroom : nesting e.pattern ≤ room) :
    Reads (regexp d limit room) EndsExpression e.pattern e := by
  induction room generalizing e with
  | zero => exact reads_expression (fun _ _ hdepth => absurd hdepth (Nat.not_lt_zero _)) he hroom
  | succ room ih =>
    exact reads_expression
      (fun _ he' hdepth => readsGroup_groupOf (ih he' (Nat.le_of_lt_succ hdepth))) he hroom

end Rule

-- ---------------------------------------------------------------------------
-- Whole patterns
-- ---------------------------------------------------------------------------

/-- A pattern is read as what its whole text is read as: nothing stands behind it, and the
end is one of the tokens at which an expression stops. -/
theorem read_of_reads {o : Options} {pattern : String} {e : Expr Char}
    (h : Rule.Reads (Rule.regexp o.dialect o.maxDepth o.maxDepth) Rule.EndsExpression
      pattern.toList e) : (read o pattern).result = .ok e := by
  obtain ⟨r, hr, hexpr, hstop⟩ := h { rest := pattern.toList } []
    (List.append_nil _).symm (.inr (.inl rfl))
  have htoken : r.stop.token o.dialect = .finish := Rule.token_stop hstop
  have hall : readAll o pattern.toList = .ok (e, r.stop) := by
    rw [readAll, hr, ok_bind, htoken, hexpr]
    rfl
  rw [read, hall]

theorem read_pattern {o : Options} {e : Expr Char} (he : e.isWrittenIn o.dialect = true)
    (hdepth : nesting e.pattern ≤ o.maxDepth) :
    (read o (String.ofList e.pattern)).result = .ok e :=
  read_of_reads ((String.toList_ofList (l := e.pattern)).symm ▸
    Rule.reads_regexp o.maxDepth he hdepth)

theorem compile_eq_ok_of_pattern {o : Options} {e : Expr Char} {pattern : String}
    (hpattern : String.ofList e.pattern = pattern) (he : e.isWrittenIn o.dialect = true)
    (hdepth : nesting e.pattern ≤ o.maxDepth) :
    compile o pattern = .ok (.ofExpr pattern o.dialect e) :=
  compile_eq_ok_iff.mpr ⟨e, hpattern ▸ read_pattern he hdepth, rfl⟩

/-- **Reading undoes writing**: the pattern of an expression compiles, if its groups are
not nested too deep, and the tree that comes out is the expression with the end marker
behind it. -/
theorem compile_pattern {o : Options} {e : Expr Char} (he : e.isWrittenIn o.dialect = true)
    (hdepth : nesting e.pattern ≤ o.maxDepth) :
    ∃ t, compile o (String.ofList e.pattern) = .ok t ∧
      t.expr? = some ((Expr.concat (e.map .char) (.leaf .endMarker)).number 1) :=
  ⟨_, compile_eq_ok_iff.mpr ⟨e, read_pattern he hdepth, rfl⟩, ParseTree.expr?_ofExpr⟩

/-- Every operator with an empty operand and with a right operand of its own kind, where
brackets are needed to keep the grouping. -/
theorem compile_pattern_of_all_operators :
    let e : Expr Char :=
      .shuffle (.union .epsilon (.concat (.star (.star (.union (.leaf 'a') .epsilon))) .epsilon))
        (.shuffle (.concat (.leaf 'b') (.concat (.star .epsilon) (.leaf 'c')))
          (.union .epsilon (.union .epsilon (.shuffle (.leaf 'd') .epsilon))))
    String.ofList e.pattern = "|(a|)**()&(b(()*c)&|(|(d&)))" ∧
      e.isWrittenIn .parallel = true ∧ nesting e.pattern ≤ 3 ∧
      ∃ t, compile { dialect := .parallel, maxDepth := 3 } (String.ofList e.pattern) = .ok t ∧
        t.expr? = some ((Expr.concat (e.map .char) (.leaf .endMarker)).number 1) :=
  ⟨by cbv, by decide, by decide, compile_pattern (by decide) (by decide)⟩

end PatternAutomata
