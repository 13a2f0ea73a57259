import PatternAutomata.Proofs.Parser.Scan

/-!
# Pattern automata — nothing that is read is lost

Whatever a rule reads it turns into an expression, and all but the brackets can
be read off that expression again: its leaves are the literals and its operators
the signs of the text, each in their order. Every rule keeps this, as it adds
what it reads behind what was read before it (`Reading.Consumed`).

## Results

* `Consumes.bind`       — one rule after another.
* `consumes_regexp`     — every rule, at every depth, turns the text that it reads into what it
  makes.
* `accounts_of_read`    — so a pattern that is read is accounted for as a whole.
-/

namespace PatternAutomata

namespace Dialect

variable {d : Dialect} {c : Char}

theorem isSign_star : d.isSign '*' = true := rfl

theorem isSign_bar : d.isSign '|' = true := by cases d <;> rfl

/-- An ampersand is one only where there are interleavings. Elsewhere it is a literal or
foreign. -/
theorem isSign_amp : d.isSign '&' = d.hasInterleave := by cases d <;> rfl

/-- No sign of an operator is a literal. -/
theorem isLiteral_eq_false (hc : d.isSign c = true) : d.isLiteral c = false := by
  rw [isSign, Bool.or_eq_true, Bool.or_eq_true, Bool.and_eq_true, beq_iff_eq, beq_iff_eq,
    beq_iff_eq] at hc
  rcases hc with (rfl | rfl) | ⟨rfl, hd⟩
  · cases d <;> decide
  · cases d <;> decide
  · simp [isLiteral, hd]

/-- No character is a literal and the sign of an operator. -/
theorem isSign_eq_false (hc : d.isLiteral c = true) : d.isSign c = false := by
  cases hsign : d.isSign c with
  | false => rfl
  | true => exact absurd hc (by simp [isLiteral_eq_false hsign])

end Dialect

/-- The signs of the operators, in the order in which they are written. Concatenation has
none. -/
def Expr.signs {α : Type} : Expr α → List Char
  | epsilon | leaf _ => []
  | concat l r => l.signs ++ r.signs
  | union l r => l.signs ++ '|' :: r.signs
  | shuffle l r => l.signs ++ '&' :: r.signs
  | star e => e.signs ++ ['*']

-- ---------------------------------------------------------------------------
-- Texts
-- ---------------------------------------------------------------------------

/-- All literals and all signs of the text are in the expression, and nothing else is.
Both are compared in order, so an expression cannot have them in another order than the
text. -/
structure Accounts (d : Dialect) (text : List Char) (e : Expr Char) : Prop where
  leaves_eq : e.leaves = text.filter d.isLiteral
  signs_eq : e.signs = text.filter d.isSign

namespace Accounts

open Dialect

variable {d : Dialect} {text more : List Char} {e l r : Expr Char} {c : Char}

theorem epsilon : Accounts d [] .epsilon := ⟨rfl, rfl⟩

theorem leaf (hc : d.isLiteral c = true) : Accounts d [c] (.leaf c) where
  leaves_eq := by simp [Expr.leaves, hc]
  signs_eq := by simp [Expr.signs, isSign_eq_false hc]

theorem star (he : Accounts d text e) : Accounts d (text ++ ['*']) (.star e) where
  leaves_eq := by simp [Expr.leaves, he.leaves_eq, isLiteral_eq_false isSign_star]
  signs_eq := by simp [Expr.signs, he.signs_eq, List.filter_cons, isSign_star]

theorem concat (hl : Accounts d text l) (hr : Accounts d more r) :
    Accounts d (text ++ more) (.concat l r) where
  leaves_eq := by simp [Expr.leaves, hl.leaves_eq, hr.leaves_eq]
  signs_eq := by simp [Expr.signs, hl.signs_eq, hr.signs_eq]

theorem union (hl : Accounts d text l) (hr : Accounts d more r) :
    Accounts d (text ++ '|' :: more) (.union l r) where
  leaves_eq := by simp [Expr.leaves, hl.leaves_eq, hr.leaves_eq, isLiteral_eq_false isSign_bar]
  signs_eq := by simp [Expr.signs, hl.signs_eq, hr.signs_eq, isSign_bar]

/-- An ampersand is between the operands of an interleaving, in a dialect where it is a
sign. -/
theorem shuffle (hd : d.hasInterleave = true) (hl : Accounts d text l) (hr : Accounts d more r) :
    Accounts d (text ++ '&' :: more) (.shuffle l r) where
  leaves_eq := by
    have hamp := isLiteral_eq_false (isSign_amp.trans hd)
    simp [Expr.leaves, hl.leaves_eq, hr.leaves_eq, hamp]
  signs_eq := by simp [Expr.signs, hl.signs_eq, hr.signs_eq, isSign_amp.trans hd]

/-- Brackets leave nothing behind. They are neither literals nor signs. -/
theorem brackets (he : Accounts d text e) : Accounts d ('(' :: text ++ [')']) e := by
  have hliteral : d.isLiteral '(' = false ∧ d.isLiteral ')' = false := by cases d <;> decide
  have hsign : d.isSign '(' = false ∧ d.isSign ')' = false := by cases d <;> decide
  refine ⟨?_, ?_⟩
  · simp [he.leaves_eq, hliteral]
  · simp [he.signs_eq, hsign]

end Accounts

-- ---------------------------------------------------------------------------
-- Rules
-- ---------------------------------------------------------------------------

variable {d : Dialect} {s s' : Cursor} {least least' : Nat}

/-- The expression accounts for the text between the two places, the one where reading
began and the one where it stopped. -/
def Reading.Consumed (d : Dialect) (r : Reading s least) : Prop :=
  ∃ text, s.rest = text ++ r.stop.rest ∧ Accounts d text r.expr

/-- Whatever the rule reads, its expression accounts for. -/
def Consumes (d : Dialect) (x : Except Halt (Reading s least)) : Prop :=
  ∀ r, x = .ok r → r.Consumed d

/-- A rule that goes on from what another one has read. -/
theorem Consumes.bind {x : Except Halt (Reading s least)}
    {f : Reading s least → Except Halt (Reading s' least')} (hx : Consumes d x)
    (hf : ∀ r : Reading s least, r.Consumed d → Consumes d (f r)) : Consumes d (x >>= f) := by
  intro r' h
  obtain ⟨r, hr, h⟩ := bind_eq_ok.mp h
  exact hf r (hx r hr) r' h

theorem consumes_ok {r : Reading s least} (hr : r.Consumed d) : Consumes d (.ok r) :=
  fun _ h => Except.ok.inj h ▸ hr

theorem consumes_error (halt : Halt) : Consumes d (.error halt : Except Halt (Reading s least)) :=
  fun _ h => nomatch h

/-- Going on without another rule. -/
theorem Consumes.map {x : Except Halt (Reading s least)} {f : Reading s least → Reading s least'}
    (hx : Consumes d x) (hf : ∀ r : Reading s least, r.Consumed d → (f r).Consumed d) :
    Consumes d (x.map f) := by
  intro r' h
  cases x with
  | error halt => exact nomatch h
  | ok r => exact Except.ok.inj h ▸ hf r (hx r rfl)

-- ---------------------------------------------------------------------------
-- Tokens
-- ---------------------------------------------------------------------------

/-- The character that a token stands for. Only the end stands for none. -/
def Token.char? : Token → Option Char
  | opening => some '('
  | closing => some ')'
  | bar => some '|'
  | star => some '*'
  | amp => some '&'
  | literal c | invalid c => some c
  | finish => none

theorem char?_ofChar (c : Char) : (Token.ofChar d c).char? = some c := by
  unfold Token.ofChar
  grind [Token.char?]

/-- If a token stands for a character, this is the next one of the text. So a rule that
has seen a token knows the text up to behind it. -/
theorem rest_eq_cons {c : Char} {t : Token} (h : s.token d = t) (ht : t.char? = some c) :
    s.rest = c :: s.advance.rest := by
  obtain ⟨rest, offset, literals⟩ := s
  subst h
  cases rest with
  | nil => exact nomatch ht
  | cons c' rest =>
    have hc : (Token.ofChar d c').char? = some c := ht
    rw [char?_ofChar] at hc
    rw [Option.some.inj hc]
    rfl

/-- A token of a literal comes from a literal, since all operators are looked for first. -/
theorem isLiteral_of_token {c : Char} (h : s.token d = .literal c) : d.isLiteral c = true := by
  obtain ⟨rest, offset, literals⟩ := s
  cases rest with
  | nil => exact nomatch h
  | cons c' rest =>
    have hc : Token.ofChar d c' = .literal c := h
    unfold Token.ofChar at hc
    grind

namespace Rule

variable {group : GroupReader d} {origin : Cursor}

-- ---------------------------------------------------------------------------
-- Repetitions
-- ---------------------------------------------------------------------------

/-- An atom accounts for a literal, for a group, or for nothing. Where an operand is left
out, there is no text and the expression has no leaf. -/
theorem consumes_atom (hgroup : ∀ s h, Consumes d (group s h)) (s : Cursor) :
    Consumes d (atom group s) := by
  unfold atom
  split
  · rename_i c h
    exact consumes_ok ⟨[c], rest_eq_cons h rfl, .leaf (isLiteral_of_token h)⟩
  · rename_i h
    exact (hgroup s h).map fun _ hr => hr
  all_goals exact consumes_ok ⟨[], rfl, .epsilon⟩

/-- Stars are put behind the atom, one for each. -/
theorem consumed_stars (r : Reading origin least) (hr : r.Consumed d) :
    (stars d r).Consumed d := by
  fun_induction stars d r with
  | case1 r h hlt ih =>
    obtain ⟨text, hrest, hr⟩ := hr
    exact ih ⟨text ++ ['*'], by rw [hrest, rest_eq_cons h rfl]; simp, hr.star⟩
  | case2 r h => exact hr

theorem consumes_repetition (hgroup : ∀ s h, Consumes d (group s h)) (s : Cursor) :
    Consumes d (repetition group s) :=
  (consumes_atom hgroup s).map consumed_stars

-- ---------------------------------------------------------------------------
-- Chains of operands
-- ---------------------------------------------------------------------------

/-- Each factor is put behind those before it, so the text of the whole is the texts of
the factors in turn. -/
theorem consumes_factors (hgroup : ∀ s h, Consumes d (group s h)) (left : Reading origin least)
    (hleft : left.Consumed d) : Consumes d (factors group left) := by
  generalize hn : left.stop.rest.length = n
  induction n using Nat.strongRecOn generalizing left with
  | ind n ih =>
    rw [factors]
    split
    · rename_i h
      refine (consumes_repetition hgroup left.stop).bind fun right hright => ?_
      have hle := right.stop_le
      have hleast := Cursor.least_eq_one h
      refine ih right.stop.rest.length (by omega) _ ?_ rfl
      obtain ⟨text, hrest, hleft⟩ := hleft
      -- the two texts stand one behind the other
      obtain ⟨more, hmore, hright⟩ := hright
      exact ⟨text ++ more, by rw [hrest, hmore, List.append_assoc], hleft.concat hright⟩
    · exact consumes_ok hleft

theorem consumes_concatenation (hgroup : ∀ s h, Consumes d (group s h)) (s : Cursor) :
    Consumes d (concatenation group s) :=
  (consumes_repetition hgroup s).bind fun left hleft => consumes_factors hgroup left hleft

/-- What an operator puts together accounts for its sign as well. In the plain dialect `&`
is no sign, but then the rule is never asked for it. -/
theorem Accounts.operator {op : Operator} {text more : List Char} {l r : Expr Char}
    (h : s.token d = op.token) (hl : Accounts d text l) (hr : Accounts d more r) :
    ∃ sign, s.rest = sign :: s.advance.rest ∧ Accounts d (text ++ sign :: more) (op.apply l r) := by
  cases op with
  | bar => exact ⟨'|', rest_eq_cons h rfl, hl.union hr⟩
  | amp =>
    have hd : d.hasInterleave = true := by
      cases hd : d.hasInterleave with
      | true => rfl
      | false => exact absurd h (token_ne_amp (o := { dialect := d }) hd s)
    exact ⟨'&', rest_eq_cons h rfl, hl.shuffle hd hr⟩

/-- Each operand is put behind those before it, with the sign between them. The sign is
the only character that is in no operand. -/
theorem consumes_operands (op : Operator) {operand : OperandReader d}
    (hoperand : ∀ s, Consumes d (operand s)) (left : Reading origin least)
    (hleft : left.Consumed d) : Consumes d (operands op operand left) := by
  generalize hn : left.stop.rest.length = n
  induction n using Nat.strongRecOn generalizing left with
  | ind n ih =>
    rw [operands]
    split
    · rename_i h
      have hlt := Cursor.length_advance_lt (h ▸ op.token_ne_finish)
      refine (hoperand left.stop.advance).bind fun right hright => ?_
      have hle := right.stop_le
      refine ih right.stop.rest.length (by omega) _ ?_ rfl
      -- the texts of the operands before, of the sign and of this operand, in turn
      obtain ⟨text, hrest, hleft⟩ := hleft
      obtain ⟨more, hmore, hright⟩ := hright
      obtain ⟨sign, hsign, hboth⟩ := Accounts.operator h hleft hright
      exact ⟨text ++ sign :: more, by rw [hrest, hsign, hmore]; simp, hboth⟩
    · exact consumes_ok hleft

theorem consumes_alternation (hgroup : ∀ s h, Consumes d (group s h)) (s : Cursor) :
    Consumes d (alternation group s) :=
  (consumes_concatenation hgroup s).bind fun left hleft =>
    consumes_operands .bar (consumes_concatenation hgroup) left hleft

theorem consumes_interleaving (hgroup : ∀ s h, Consumes d (group s h)) (s : Cursor) :
    Consumes d (interleaving group s) :=
  (consumes_alternation hgroup s).bind fun left hleft =>
    consumes_operands .amp (consumes_alternation hgroup) left hleft

-- ---------------------------------------------------------------------------
-- Groups
-- ---------------------------------------------------------------------------

/-- Whatever the dialect calls an expression. -/
theorem consumes_expression (hgroup : ∀ s h, Consumes d (group s h)) (s : Cursor) :
    Consumes d (expression group s) := by
  unfold expression
  split
  · exact consumes_interleaving hgroup s
  · exact consumes_alternation hgroup s

/-- A group is an expression in brackets. The brackets are no signs, so they are accounted
for by neither side. -/
theorem consumes_groupOf {inside : OperandReader d} (hinside : ∀ s, Consumes d (inside s))
    (s : Cursor) (h : s.token d = .opening) : Consumes d (groupOf inside s h) := by
  refine (hinside s.advance).bind fun inner hinner => ?_
  split
  · rename_i hclosing
    obtain ⟨text, hrest, hinner⟩ := hinner
    refine consumes_ok ⟨'(' :: text ++ [')'], ?_, hinner.brackets⟩
    rw [rest_eq_cons h rfl, hrest, rest_eq_cons hclosing rfl]
    simp
  · exact consumes_error _

/-- Every rule, at every depth, turns the text that it reads into what it makes. -/
theorem consumes_regexp (limit room : Nat) (s : Cursor) :
    Consumes d (regexp d limit room s) := by
  induction room generalizing s with
  | zero => exact consumes_expression (fun _ _ => consumes_error _) s
  | succ room ih => exact consumes_expression (consumes_groupOf ih) s

end Rule

-- ---------------------------------------------------------------------------
-- Whole patterns
-- ---------------------------------------------------------------------------

/-- Reading a pattern ends behind its last character. No other token is taken for the
end. -/
theorem exists_reading {o : Options} {pattern : String} {body : Expr Char}
    (h : (read o pattern).result = .ok body) :
    ∃ r, Rule.regexp o.dialect o.maxDepth o.maxDepth { rest := pattern.toList } = .ok r ∧
      r.expr = body ∧ r.stop.rest = [] := by
  rw [read] at h
  split at h
  · rename_i e stop hall
    obtain ⟨r, hr, hall⟩ := bind_eq_ok.mp hall
    split at hall
    · rename_i hfinish
      cases hall
      cases h
      refine ⟨r, hr, rfl, ?_⟩
      -- no character is read as the end, so nothing is left
      cases hrest : r.stop.rest with
      | nil => rfl
      | cons c rest =>
        rw [Cursor.token, hrest] at hfinish
        exact absurd hfinish (ofChar_ne_finish o.dialect c)
    · cases hall
    · cases hall
  · cases h

/-- A pattern that is read is accounted for as a whole: its literals are the leaves, its
signs the operators, and the rest are brackets. -/
theorem accounts_of_read {o : Options} {pattern : String} {body : Expr Char}
    (h : (read o pattern).result = .ok body) : Accounts o.dialect pattern.toList body := by
  obtain ⟨r, hr, rfl, hstop⟩ := exists_reading h
  obtain ⟨text, hrest, htext⟩ := Rule.consumes_regexp o.maxDepth o.maxDepth _ r hr
  obtain rfl : pattern.toList = text := by simpa [hstop] using hrest
  exact htext

end PatternAutomata
