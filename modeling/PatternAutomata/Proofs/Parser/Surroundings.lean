import PatternAutomata.Proofs.Parser.Consumed
import PatternAutomata.Proofs.Parser.RoundTrip

/-!
# Pattern automata — patterns in other surroundings

The rules look at a pattern through its tokens only, so what they read at one
place they read at every place with the same tokens. They need not even be the
same to the last: at the end of a pattern all loops stop, as they do before a `)`,
so a pattern is read as the same expression when it stands in brackets, or
anywhere else where an expression ends behind it. How many groups are around it
matters for nothing but the depth that is left.

Two readers are run side by side from places that their tokens do not tell apart
(`Indistinct`), and the second repeats what the first reads (`Repeats`).

## Results

* `Repeats.bind`    — one rule after another.
* `repeats_regexp`  — every rule, at every depth, is repeated where the depth suffices.
* `reads_of_read`   — a pattern is read as the same expression wherever one can end behind it.
-/

namespace PatternAutomata

namespace Rule

/-- Tokens at which the rules do the same: the end of a pattern is like any token that ends an
expression. -/
def Alike (t t' : Token) : Prop := t' = t ∨ t = .finish ∧ EndsExpression t'

namespace Alike

variable {t t' u : Token}

/-- Tokens that are alike are the same, apart from the end of a pattern. -/
theorem eq (h : Alike t t') (hne : t ≠ .finish) : t' = t :=
  h.resolve_right fun hfinish => hne hfinish.1

/-- At the end no factor begins, as none does where an expression ends. -/
theorem startsFactor_eq (h : Alike t t') : t'.startsFactor = t.startsFactor := by
  rcases h with rfl | ⟨rfl, hends⟩
  · rfl
  · exact hends.endsAlternatives.1.2

/-- A token that does not end an expression is told from all others, by alike tokens
alike. So a rule that looks for such a token decides in the same way at both places. -/
theorem eq_iff (h : Alike t t') (hu : ¬ EndsExpression u) : t' = u ↔ t = u := by
  rcases h with rfl | ⟨rfl, hends⟩
  · rfl
  · refine iff_of_false ?_ ?_
    · rintro rfl
      exact hu hends
    · rintro rfl
      exact hu (.inr (.inl rfl))

theorem eq_star_iff (h : Alike t t') : t' = .star ↔ t = .star :=
  h.eq_iff fun hends => hends.endsAlternatives.1.1 rfl

theorem eq_token_iff (h : Alike t t') (op : Operator) : t' = op.token ↔ t = op.token := by
  refine h.eq_iff fun hends => ?_
  cases op with
  | bar => exact hends.endsAlternatives.2 rfl
  | amp => exact hends.ne_amp rfl

end Alike

/-- Places from which on all tokens are alike. Wherever one reader goes on, so can the
other, and they come to places of this kind again. -/
structure Indistinct (d d' : Dialect) (R : Cursor → Cursor → Prop) : Prop where
  alike : ∀ {s s'}, R s s' → Alike (s.token d) (s'.token d')
  advance : ∀ {s s'}, R s s' → s.token d ≠ .finish → R s.advance s'.advance
  advanceOver : ∀ {s s' c}, R s s' → s.token d ≠ .finish → R (s.advanceOver c) (s'.advanceOver c)

variable {d d' : Dialect} {R : Cursor → Cursor → Prop} {s s' t t' : Cursor}
  {least least' more more' : Nat}

/-- The same expression was read, up to places of `R`. -/
def SameReading (R : Cursor → Cursor → Prop) (r : Reading s least) (r' : Reading s' least') :
    Prop :=
  r'.expr = r.expr ∧ R r.stop r'.stop

/-- What is made of readings that stopped at places of `R` stops there as well. -/
theorem SameReading.made {r : Reading s least} {r' : Reading s' least'} {q : Reading t more}
    {q' : Reading t' more'} (h : SameReading R r r') (hexpr : q'.expr = q.expr)
    (hstop : q.stop = r.stop) (hstop' : q'.stop = r'.stop) : SameReading R q q' :=
  ⟨hexpr, hstop ▸ hstop' ▸ h.2⟩

/-- What the first reader has read the second one has read as well. -/
def Repeats (R : Cursor → Cursor → Prop) (x : Except Halt (Reading s least))
    (x' : Except Halt (Reading s' least')) : Prop :=
  ∀ r, x = .ok r → ∃ r', x' = .ok r' ∧ SameReading R r r'

theorem repeats_ok {r : Reading s least} {r' : Reading s' least'} (h : SameReading R r r') :
    Repeats R (.ok r) (.ok r') := by
  intro _ hr
  obtain rfl := Except.ok.inj hr
  exact ⟨r', rfl, h⟩

theorem repeats_error {halt : Halt} {x' : Except Halt (Reading s' least')} :
    Repeats R (.error halt : Except Halt (Reading s least)) x' := fun _ hr => nomatch hr

section Combinators

variable {x : Except Halt (Reading s least)} {x' : Except Halt (Reading s' least')}

/-- Rules that go on from where the readers stopped. What the second reader does is only
asked for where the first one succeeds, so errors need not be the same. -/
theorem Repeats.bind {f : Reading s least → Except Halt (Reading t more)}
    {f' : Reading s' least' → Except Halt (Reading t' more')} (hx : Repeats R x x')
    (hf : ∀ r r', SameReading R r r' → Repeats R (f r) (f' r')) :
    Repeats R (x >>= f) (x' >>= f') := by
  intro q hq
  obtain ⟨r, hr, hq⟩ := bind_eq_ok.mp hq
  obtain ⟨r', hr', hsame⟩ := hx r hr
  obtain ⟨q', hq', hsame'⟩ := hf r r' hsame q hq
  exact ⟨q', by rw [hr', ok_bind, hq'], hsame'⟩

/-- Going on without another rule, with what was read made into something else. -/
theorem Repeats.map {f : Reading s least → Reading t more}
    {f' : Reading s' least' → Reading t' more'} (hx : Repeats R x x')
    (hf : ∀ r r', SameReading R r r' → SameReading R (f r) (f' r')) :
    Repeats R (x.map f) (x'.map f') := by
  cases x with
  | error halt => exact repeats_error
  | ok r =>
    obtain ⟨r', rfl, hsame⟩ := hx r rfl
    exact repeats_ok (hf r r' hsame)

end Combinators

section Rules

variable {group : GroupReader d} {group' : GroupReader d'} {origin origin' : Cursor}
  {left : Reading origin least} {left' : Reading origin' least'}

variable (hR : Indistinct d d' R)
  (hgroup : ∀ {s s'} (h : s.token d = .opening) (h' : s'.token d' = .opening), R s s' →
    Repeats R (group s h) (group' s' h'))

include hR

-- ---------------------------------------------------------------------------
-- Repetitions
-- ---------------------------------------------------------------------------

/-- Both loops over stars end at the same time, as a star is no end of an expression and
so looks the same at both places. -/
theorem same_stars (h : SameReading R left left') :
    SameReading R (stars d left) (stars d' left') := by
  fun_induction stars d left generalizing left' with
  | case1 left hstar _ ih =>
    obtain ⟨hexpr, hstop⟩ := h
    obtain ⟨r, hloop, hexpr', hstop'⟩ := stars_of_eq ((hR.alike hstop).eq_star_iff.mpr hstar)
    rw [hloop]
    exact ih ⟨by rw [hexpr', hexpr], hstop' ▸ hR.advance hstop (by simp [hstar])⟩
  | case2 left hstar =>
    rw [stars_of_ne fun hstar' => hstar ((hR.alike h.2).eq_star_iff.mp hstar')]
    exact h

include hgroup

/-- The token tells which kind of atom it is. A literal repeats itself, and a group does
if the group readers repeat each other. -/
theorem repeats_atom (h : R s s') : Repeats R (atom group s) (atom group' s') := by
  have halike := hR.alike h
  cases hstart : (s.token d).startsFactor with
  | true =>
    -- an atom begins here, so this is not the end, and the tokens are the same
    have hne : s.token d ≠ .finish := by
      intro hfinish
      rw [hfinish] at hstart
      exact nomatch hstart
    obtain ⟨c, htoken⟩ | htoken := Token.startsFactor_iff.mp hstart
    · obtain ⟨r, hr, hexpr, hstop⟩ := atom_of_literal group htoken
      obtain ⟨r', hr', hexpr', hstop'⟩ :=
        atom_of_literal group' ((halike.eq hne).trans htoken)
      rw [hr, hr']
      exact repeats_ok ⟨hexpr'.trans hexpr.symm, hstop ▸ hstop' ▸ hR.advanceOver h hne⟩
    · have htoken' := (halike.eq hne).trans htoken
      obtain ⟨f, hf, hsame⟩ := atom_of_opening group htoken
      obtain ⟨f', hf', hsame'⟩ := atom_of_opening group' htoken'
      rw [hf, hf']
      refine (hgroup htoken htoken' h).map fun r r' hr => hr.made ?_ (hsame r).2 (hsame' r').2
      rw [(hsame r).1, (hsame' r').1, hr.1]
  | false =>
    obtain ⟨r, hr, hexpr, hstop⟩ := atom_of_not_startsFactor group hstart
    obtain ⟨r', hr', hexpr', hstop'⟩ :=
      atom_of_not_startsFactor group' (halike.startsFactor_eq.trans hstart)
    rw [hr, hr']
    exact repeats_ok ⟨hexpr'.trans hexpr.symm, by rwa [hstop, hstop']⟩

theorem repeats_repetition (h : R s s') :
    Repeats R (repetition group s) (repetition group' s') :=
  (repeats_atom hR hgroup h).map fun _ _ => same_stars hR

-- ---------------------------------------------------------------------------
-- Chains of operands
-- ---------------------------------------------------------------------------

/-- Both loops over factors end at the same time, since the tokens at which they go on are
alike. -/
theorem repeats_factors (h : SameReading R left left') :
    Repeats R (factors group left) (factors group' left') := by
  -- the first loop has less to read after every round, and the second one follows it
  generalize hn : left.stop.rest.length = n
  induction n using Nat.strongRecOn generalizing left left' with
  | ind n ih =>
    have halike := (hR.alike h.2).startsFactor_eq
    cases hstart : (left.stop.token d).startsFactor with
    | true =>
      obtain ⟨f, hloop, hf⟩ := factors_of_startsFactor group hstart
      obtain ⟨f', hloop', hf'⟩ := factors_of_startsFactor group' (halike.trans hstart)
      rw [hloop, hloop']
      refine (repeats_repetition hR hgroup h.2).bind fun r r' hr => ?_
      have hle := r.stop_le
      have hleast := Cursor.least_eq_one hstart
      have hshorter : (f r).stop.rest.length < n := by rw [(hf r).2]; omega
      refine ih _ hshorter (hr.made ?_ (hf r).2 (hf' r').2) rfl
      rw [(hf r).1, (hf' r').1, h.1, hr.1]
    | false =>
      rw [factors_of_not_startsFactor hstart, factors_of_not_startsFactor (halike.trans hstart)]
      exact repeats_ok h

theorem repeats_concatenation (h : R s s') :
    Repeats R (concatenation group s) (concatenation group' s') :=
  (repeats_repetition hR hgroup h).bind fun _ _ => repeats_factors hR hgroup

omit hgroup

/-- Both loops over operands end at the same time, whichever operator they are for. The
induction is on what the first one has left to read. -/
theorem repeats_operands (op : Operator) {operand : OperandReader d} {operand' : OperandReader d'}
    (hoperand : ∀ {s s'}, R s s' → Repeats R (operand s) (operand' s'))
    (h : SameReading R left left') :
    Repeats R (operands op operand left) (operands op operand' left') := by
  generalize hn : left.stop.rest.length = n
  induction n using Nat.strongRecOn generalizing left left' with
  | ind n ih =>
    have halike := (hR.alike h.2).eq_token_iff op
    by_cases htoken : left.stop.token d = op.token
    · obtain ⟨f, hloop, hf⟩ := operands_of_eq operand htoken
      obtain ⟨f', hloop', hf'⟩ := operands_of_eq operand' (halike.mpr htoken)
      have hne : left.stop.token d ≠ .finish := htoken ▸ op.token_ne_finish
      rw [hloop, hloop']
      refine (hoperand (hR.advance h.2 hne)).bind fun r r' hr => ?_
      have hlt := Cursor.length_advance_lt hne
      have hle := r.stop_le
      -- the sign was taken, so less is left behind the operand
      have hshorter : (f r).stop.rest.length < n := by rw [(hf r).2]; omega
      refine ih _ hshorter (hr.made ?_ (hf r).2 (hf' r').2) rfl
      rw [(hf r).1, (hf' r').1, h.1, hr.1]
    · rw [operands_of_ne htoken, operands_of_ne (mt halike.mp htoken)]
      exact repeats_ok h

include hgroup

theorem repeats_alternation (h : R s s') :
    Repeats R (alternation group s) (alternation group' s') :=
  (repeats_concatenation hR hgroup h).bind fun _ _ =>
    repeats_operands hR .bar (repeats_concatenation hR hgroup)

theorem repeats_interleaving (h : R s s') :
    Repeats R (interleaving group s) (interleaving group' s') :=
  (repeats_alternation hR hgroup h).bind fun _ _ =>
    repeats_operands hR .amp (repeats_alternation hR hgroup)

-- ---------------------------------------------------------------------------
-- Groups
-- ---------------------------------------------------------------------------

/-- Both dialects read interleavings, if only of one operand where they have none. -/
theorem repeats_expression (h : R s s') :
    Repeats R (expression group s) (expression group' s') := by
  rw [expression_eq_interleaving, expression_eq_interleaving]
  exact repeats_interleaving hR hgroup h

omit hgroup

/-- A group ends at a `)` at both places, as this is no end of a pattern. So the same
brackets are matched, whatever stands behind the whole text. -/
theorem repeats_groupOf {inside : OperandReader d} {inside' : OperandReader d'}
    (hinside : ∀ {s s'}, R s s' → Repeats R (inside s) (inside' s'))
    (h : s.token d = .opening) (h' : s'.token d' = .opening) (hs : R s s') :
    Repeats R (groupOf inside s h) (groupOf inside' s' h') := by
  intro r hr
  obtain ⟨inner, hinner, hclosing, hexpr, hstop⟩ := closing_of_groupOf hr
  obtain ⟨inner', hinner', hsame⟩ :=
    hinside (hR.advance hs (by simp [h])) inner hinner
  have hne : inner.stop.token d ≠ .finish := by simp [hclosing]
  have hclosing' := ((hR.alike hsame.2).eq hne).trans hclosing
  obtain ⟨r', hr', hexpr', hstop'⟩ := groupOf_of_closing (h := h') hinner' hclosing'
  exact ⟨r', hr', by rw [hexpr', hsame.1, hexpr], hstop ▸ hstop' ▸ hR.advance hsame.2 hne⟩

/-- Every rule is repeated where at least as many groups are allowed. The induction is on
the room at the first place: within a group there is less of it at both. -/
theorem repeats_regexp {limit limit' room room' : Nat} (hroom : room ≤ room') (h : R s s') :
    Repeats R (regexp d limit room s) (regexp d' limit' room' s') := by
  induction room generalizing room' s s' with
  | zero =>
    -- no group is read, so whatever reads groups at the other place is never asked
    have hnone : ∀ group' : GroupReader d',
        Repeats R (regexp d limit 0 s) (expression group' s') := fun _ =>
      repeats_expression hR (fun _ _ _ => repeats_error) h
    cases room' with
    | zero => exact hnone _
    | succ room' => exact hnone _
  | succ room ih =>
    obtain ⟨room', rfl⟩ := Nat.exists_eq_add_of_le' (Nat.le_of_add_left_le hroom)
    exact repeats_expression hR (repeats_groupOf hR (ih (by omega))) h

end Rules

-- ---------------------------------------------------------------------------
-- Texts
-- ---------------------------------------------------------------------------

section Behind

variable {behind : List Char}

/-- A step does not come to what is behind, as long as the text is not at its end. -/
theorem rest_advance (h : s'.rest = s.rest ++ behind) (hne : s.token d ≠ .finish) :
    s'.advance.rest = s.advance.rest ++ behind := by
  obtain ⟨rest, offset, literals⟩ := s
  cases rest with
  | nil => exact absurd rfl hne
  | cons c rest => exact congrArg List.tail h

/-- The same text with something behind it, in a dialect in which its characters mean the
same. What stands behind has to begin with a token at which an expression stops, as the
end of a text does. -/
theorem indistinct_behind (h : EndsExpression (Token.ofRest d' behind)) :
    Indistinct d d' fun s s' =>
      s'.rest = s.rest ++ behind ∧ ∀ c ∈ s.rest, Token.ofChar d' c = Token.ofChar d c where
  alike {s s'} hs := by
    unfold Cursor.token
    rw [hs.1]
    cases hrest : s.rest with
    | nil => exact .inr ⟨rfl, h⟩
    | cons c rest => exact .inl (hs.2 c (hrest ▸ List.mem_cons_self))
  advance hs hne := ⟨rest_advance hs.1 hne, fun c hc => hs.2 c (List.mem_of_mem_tail hc)⟩
  advanceOver hs hne := ⟨rest_advance hs.1 hne, fun c hc => hs.2 c (List.mem_of_mem_tail hc)⟩

end Behind

end Rule

/-- A pattern is read as the same expression wherever one can end behind it, if at least
as many groups are allowed and its characters mean the same in the dialect. -/
theorem reads_of_read_of_same {o : Options} {d : Dialect} {pattern : String} {e : Expr Char}
    {limit room : Nat} (h : (read o pattern).result = .ok e) (hroom : o.maxDepth ≤ room)
    (hsame : ∀ c ∈ pattern.toList, Token.ofChar d c = Token.ofChar o.dialect c) :
    Rule.Reads (Rule.regexp d limit room) Rule.EndsExpression pattern.toList e := by
  obtain ⟨r, hr, rfl, hstop⟩ := exists_reading h
  intro s rest hs hrest
  obtain ⟨r', hr', hexpr, hstop', -⟩ :=
    Rule.repeats_regexp (Rule.indistinct_behind hrest) hroom ⟨hs, hsame⟩ r hr
  refine ⟨r', hr', hexpr, ?_⟩
  rw [hstop', hstop, List.nil_append]

/-- In its own dialect they do. -/
theorem reads_of_read {o : Options} {pattern : String} {e : Expr Char} {limit room : Nat}
    (h : (read o pattern).result = .ok e) (hroom : o.maxDepth ≤ room) :
    Rule.Reads (Rule.regexp o.dialect limit room) Rule.EndsExpression pattern.toList e :=
  reads_of_read_of_same h hroom fun _ _ => rfl

end PatternAutomata
