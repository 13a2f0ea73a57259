import Mathlib.Data.List.Forall2
import PatternAutomata.Proofs.Parser.Listing
import PatternAutomata.Proofs.Parser.Machine
import PatternAutomata.Proofs.Parser.RoundTrip

/-!
# Pattern automata — a parser that is used again

A parser starts afresh with each pattern, and it is done at the first error. It
returns through all rules then, however deep it is in groups and loops, so what it
knows afterwards is what it knew at the place of the error: the literals before that
place, and one error.

A place knows the literals before it (`Cursor.Behind`). All rules pass this on from
token to token, whether they stop or halt (`Stays`).

## Results

* `stays_regexp`     — what tokens pass on, every rule does, at every depth.
* `literals_readAll` — the literals of a pattern that is read, or of what is before the error.
* `firstErrorFrom_of_take_eq` — the first error depends on nothing behind it.
* `callAll_called`   — after each call, whatever was called before.
-/

namespace PatternAutomata

variable {d : Dialect} {P : Cursor → Prop} {s s' : Cursor} {least least' : Nat}

-- ---------------------------------------------------------------------------
-- Places that the rules come to
-- ---------------------------------------------------------------------------

/-- A property of places that is passed on from token to token. Literals are the only
tokens that a place remembers, so they are passed over in a way of their own. -/
structure PassedOn (d : Dialect) (P : Cursor → Prop) : Prop where
  advance : ∀ s, P s → s.token d ≠ .finish → (∀ c, s.token d ≠ .literal c) → P s.advance
  advanceOver : ∀ s c, P s → s.token d = .literal c → P (s.advanceOver c)

/-- The rule stops, or halts, at a place that has the property. -/
def Stays (P : Cursor → Prop) : Except Halt (Reading s least) → Prop
  | .ok r => P r.stop
  | .error halt => P halt.cursor

namespace Stays

variable {x : Except Halt (Reading s least)}

theorem bind {f : Reading s least → Except Halt (Reading s' least')} (hx : Stays P x)
    (hf : ∀ r : Reading s least, P r.stop → Stays P (f r)) : Stays P (x >>= f) := by
  cases x with
  | error halt => exact hx
  | ok r => exact hf r hx

theorem map {f : Reading s least → Reading s' least'} (hx : Stays P x)
    (hf : ∀ r : Reading s least, P r.stop → P (f r).stop) : Stays P (x.map f) := by
  cases x with
  | error halt => exact hx
  | ok r => exact hf r hx

end Stays

namespace Rule

variable {group : GroupReader d} {origin : Cursor}

section Rules

variable (hP : PassedOn d P) (hgroup : ∀ s h, P s → Stays P (group s h))

include hP

theorem stop_stars (r : Reading origin least) (hr : P r.stop) : P (stars d r).stop := by
  fun_induction stars d r with
  | case1 r h _ ih => exact ih (hP.advance _ hr (by simp [h]) (by simp [h]))
  | case2 r h => exact hr

include hgroup

/-- An atom passes over a literal, or over a group, or over nothing. Only in the first
case a literal is added to those of the cursor. -/
theorem stays_atom (hs : P s) : Stays P (atom group s) := by
  unfold atom
  split
  · rename_i c h
    exact hP.advanceOver s c hs h
  · rename_i h
    exact (hgroup s h hs).map fun r hr => hr
  all_goals exact hs

theorem stays_repetition (hs : P s) : Stays P (repetition group s) :=
  (stays_atom hP hgroup hs).map (stop_stars hP)

/-- Factor by factor; each is shorter than what is left to read, so the induction is on
that. -/
theorem stays_factors (left : Reading origin least) (hleft : P left.stop) :
    Stays P (factors group left) := by
  generalize hn : left.stop.rest.length = n
  induction n using Nat.strongRecOn generalizing left with
  | ind n ih =>
    rw [factors]
    split
    · rename_i h
      refine (stays_repetition hP hgroup hleft).bind fun right hright => ?_
      have hle := right.stop_le
      have hleast := Cursor.least_eq_one h
      exact ih right.stop.rest.length (by omega) _ hright rfl
    · exact hleft

theorem stays_concatenation (hs : P s) : Stays P (concatenation group s) :=
  (stays_repetition hP hgroup hs).bind fun left hleft => stays_factors hP hgroup left hleft

omit hgroup in
/-- Operand by operand. The sign between two of them is no literal, so it is passed over
as the others are. -/
theorem stays_operands (op : Operator) {operand : OperandReader d}
    (hoperand : ∀ s, P s → Stays P (operand s)) (left : Reading origin least)
    (hleft : P left.stop) : Stays P (operands op operand left) := by
  generalize hn : left.stop.rest.length = n
  induction n using Nat.strongRecOn generalizing left with
  | ind n ih =>
    rw [operands]
    split
    · rename_i h
      have hlt := Cursor.length_advance_lt (h ▸ op.token_ne_finish)
      have hnext : P left.stop.advance :=
        hP.advance _ hleft (h ▸ op.token_ne_finish) (by cases op <;> simp [h, Operator.token])
      -- the operand begins behind the sign, where the property has been passed on
      refine (hoperand _ hnext).bind fun right hright => ?_
      have hle := right.stop_le
      exact ih right.stop.rest.length (by omega) _ hright rfl
    · exact hleft

theorem stays_alternation (hs : P s) : Stays P (alternation group s) :=
  (stays_concatenation hP hgroup hs).bind fun left hleft =>
    stays_operands hP .bar (fun _ => stays_concatenation hP hgroup) left hleft

theorem stays_interleaving (hs : P s) : Stays P (interleaving group s) :=
  (stays_alternation hP hgroup hs).bind fun left hleft =>
    stays_operands hP .amp (fun _ => stays_alternation hP hgroup) left hleft

theorem stays_expression (hs : P s) : Stays P (expression group s) := by
  unfold expression
  split
  · exact stays_interleaving hP hgroup hs
  · exact stays_alternation hP hgroup hs

end Rules

/-- An error at the end of a group is where the inside stopped, which is a place that was
passed over already. -/
theorem stays_groupOf {inside : OperandReader d} (hP : PassedOn d P)
    (hinside : ∀ s, P s → Stays P (inside s)) (s : Cursor) (h : s.token d = .opening)
    (hs : P s) : Stays P (groupOf inside s h) := by
  have henter : P s.advance := hP.advance s hs (by simp [h]) (by simp [h])
  refine (hinside s.advance henter).bind fun inner hinner => ?_
  split
  · rename_i hclosing
    exact hP.advance _ hinner (by simp [hclosing]) (by simp [hclosing])
  · exact hinner

/-- What tokens pass on, every rule does, at every depth. No group is entered at depth
zero: the reader halts where it stands. -/
theorem stays_regexp (hP : PassedOn d P) (limit room : Nat) (hs : P s) :
    Stays P (regexp d limit room s) := by
  induction room generalizing s with
  | zero => exact stays_expression hP (fun _ _ hs => hs) hs
  | succ room ih => exact stays_expression hP (stays_groupOf hP fun _ => ih) hs

end Rule

-- ---------------------------------------------------------------------------
-- The literals before a place
-- ---------------------------------------------------------------------------

/-- The place is in the text, and knows what is behind it and the literals before it. The
literals are kept in reverse, the last one first. -/
structure Cursor.Behind (d : Dialect) (text : List Char) (s : Cursor) : Prop where
  offset_le : s.offset ≤ text.length
  rest_eq : s.rest = text.drop s.offset
  literals_eq : s.literals.reverse = d.literals (text.take s.offset)

/-- The text up to the next token, if there is one: it is one character longer, and the
token is what that character means. -/
theorem Cursor.Behind.take_succ {text : List Char} (hs : s.Behind d text)
    (h : s.token d ≠ .finish) : ∃ c, Token.ofChar d c = s.token d ∧ s.offset < text.length ∧
      s.rest = c :: s.advance.rest ∧ text.take (s.offset + 1) = text.take s.offset ++ [c] := by
  obtain ⟨rest, offset, literals⟩ := s
  obtain ⟨-, hrest, -⟩ := hs
  dsimp only at hrest
  cases rest with
  | nil => exact absurd rfl h
  | cons c rest =>
    have hlt : offset < text.length := by
      have hlength := congrArg List.length hrest
      rw [List.length_drop, List.length_cons] at hlength
      omega
    -- the first character of the rest stands at the offset
    have hc : text[offset] = c := by
      rw [List.drop_eq_getElem_cons hlt] at hrest
      exact (List.cons.inj hrest).1.symm
    exact ⟨c, rfl, hlt, rfl, by rw [List.take_succ_eq_append_getElem hlt, hc]⟩

/-- Both ways to pass over a token keep the text and the literals together: the token is a
literal of the dialect exactly where it is remembered. -/
theorem passedOn_behind (d : Dialect) (text : List Char) :
    PassedOn d (Cursor.Behind d text) where
  advance s hs hfinish hliteral := by
    obtain ⟨c, hc, hlt, -, htake⟩ := hs.take_succ hfinish
    -- the token is no literal, so neither is its character
    have hnot : ¬ d.isLiteral c = true := fun hc' =>
      hliteral c (hc.symm.trans (ofChar_of_isLiteral hc'))
    exact {
      offset_le := hlt
      rest_eq := by
        show s.rest.tail = text.drop (s.offset + 1)
        rw [hs.rest_eq, List.tail_drop]
      literals_eq := by
        show s.literals.reverse = d.literals (text.take (s.offset + 1))
        rw [hs.literals_eq, htake]
        simp [Dialect.literals, hnot] }
  advanceOver s c hs hc := by
    obtain ⟨c', -, hlt, hrest, htake⟩ := hs.take_succ (by simp [hc])
    obtain rfl : c = c' := (List.cons.inj ((rest_eq_cons hc rfl).symm.trans hrest)).1
    exact {
      offset_le := hlt
      rest_eq := by
        show s.rest.tail = text.drop (s.offset + 1)
        rw [hs.rest_eq, List.tail_drop]
      literals_eq := by
        show (c :: s.literals).reverse = d.literals (text.take (s.offset + 1))
        rw [List.reverse_cons, hs.literals_eq, htake]
        simp [Dialect.literals, isLiteral_of_token hc] }

variable {o : Options}

/-- The literals that a reader has met are those of the pattern, or of what is before the
error. -/
theorem literals_readAll (o : Options) (text : List Char) :
    match readAll o text with
    | .ok (_, stop) => stop.literals.reverse = o.dialect.literals text
    | .error halt => halt.cursor.Behind o.dialect text := by
  have hstart : Cursor.Behind o.dialect text { rest := text } := ⟨Nat.zero_le _, rfl, rfl⟩
  have hstays := Rule.stays_regexp (passedOn_behind o.dialect text) o.maxDepth o.maxDepth hstart
  rw [readAll]
  cases hr : Rule.regexp o.dialect o.maxDepth o.maxDepth { rest := text } with
  | error halt =>
    rw [hr] at hstays
    exact hstays
  | ok r =>
    rw [hr] at hstays
    have hstop : r.stop.Behind o.dialect text := hstays
    rw [ok_bind]
    cases htoken : r.stop.token o.dialect with
    | finish =>
      have hrest : r.stop.rest = [] := by
        cases hrest : r.stop.rest with
        | nil => rfl
        | cons c rest =>
          rw [Cursor.token, hrest] at htoken
          exact absurd htoken (ofChar_ne_finish o.dialect c)
      -- the text is at its end, so what is before the place is all of it
      have hend : text.take r.stop.offset = text :=
        List.take_of_length_le (List.drop_eq_nil_iff.mp (hstop.rest_eq.symm.trans hrest))
      exact hstop.literals_eq.trans (by rw [hend])
    | _ => exact hstop

-- ---------------------------------------------------------------------------
-- What is behind an error
-- ---------------------------------------------------------------------------

theorem le_offset_of_firstErrorFrom {opened offset : Nat} {l : List Char} {e : SyntaxError}
    (h : firstErrorFrom o opened offset l = some e) : offset ≤ e.offset := by
  fun_induction firstErrorFrom o opened offset l <;> grind

/-- The first error depends on nothing behind its place. The texts agree up to it and
there, so the scan takes the same branch at every character. -/
theorem firstErrorFrom_of_take_eq {opened offset : Nat} {l l' : List Char} {e : SyntaxError}
    (h : firstErrorFrom o opened offset l = some e)
    (htake : l'.take (e.offset - offset + 1) = l.take (e.offset - offset + 1)) :
    firstErrorFrom o opened offset l' = some e := by
  induction l generalizing opened offset l' with
  | nil =>
    obtain rfl : l' = [] := by simpa using htake
    exact h
  | cons c rest ih =>
    cases l' with
    | nil => simp at htake
    | cons c' rest' =>
      obtain ⟨rfl, hrest⟩ : c' = c ∧
          rest'.take (e.offset - offset) = rest.take (e.offset - offset) := by
        simpa using htake
      -- a character without an error: both scans go on, and the rests agree up to the
      -- error
      have hnext : ∀ opened, firstErrorFrom o opened (offset + 1) rest = some e →
          firstErrorFrom o opened (offset + 1) rest' = some e := by
        intro opened h
        have hle := le_offset_of_firstErrorFrom h
        refine ih h ?_
        rwa [show e.offset - (offset + 1) + 1 = e.offset - offset by omega]
      rw [firstErrorFrom_cons] at h ⊢
      cases htoken : Token.ofChar o.dialect c' with
      | invalid c =>
        rw [htoken] at h
        exact h
      | opening =>
        rw [htoken] at h
        dsimp only at h ⊢
        split at h
        · rename_i hdeep
          rwa [if_pos hdeep]
        · rename_i hdeep
          rw [if_neg hdeep]
          exact hnext _ h
      | closing =>
        rw [htoken] at h
        cases opened with
        | zero => exact h
        | succ outer => exact hnext _ h
      | _ =>
        rw [htoken] at h
        exact hnext _ h

-- ---------------------------------------------------------------------------
-- Calls
-- ---------------------------------------------------------------------------

namespace Parser

variable {pattern : String} {e : SyntaxError}

/-- A parse of a pattern without errors leaves all of its literals, each of them once, in
the order of their first occurrence. -/
theorem exists_parse_eq (p : Parser) (h : firstError? p.options pattern = none) :
    ∃ t, p.parse pattern = (.ok t, {
      options := p.options
      symbols := (p.options.dialect.literals pattern.toList).eraseDups }) := by
  have hread := readAll_eq p.options pattern.toList
  have hliterals := literals_readAll p.options pattern.toList
  rw [← firstError?, h] at hread
  obtain ⟨⟨body, stop⟩, hall⟩ := hread
  rw [hall] at hliterals
  exact ⟨_, by rw [p.parse_of_readAll_eq_ok hall, hliterals]⟩

/-- A parse that fails leaves its error and the literals before it. The other way to fail,
a token that is left over, does not occur. -/
theorem parse_eq_of_firstError (p : Parser) (h : firstError? p.options pattern = some e) :
    e.offset ≤ pattern.toList.length ∧ p.parse pattern = (.error (.rejected e), {
      options := p.options
      symbols := (p.options.dialect.literals (pattern.toList.take e.offset)).eraseDups
      error? := some e }) := by
  have hread := readAll_eq p.options pattern.toList
  have hliterals := literals_readAll p.options pattern.toList
  rw [← firstError?, h] at hread
  obtain ⟨⟨cause, stop⟩, hall, he⟩ := hread
  rw [hall] at hliterals
  -- the halt has the error of the scan, so no token was left over
  cases cause with
  | syntaxError kind =>
    cases he
    exact ⟨hliterals.offset_le, by
      rw [p.parse_of_readAll_eq_error hall, hliterals.literals_eq]⟩
  | leftover token => cases he

namespace Machine

/-- A parser after a call, and what the call has answered. Nothing in it refers to the
parser before the call, so it says that a call starts afresh. -/
structure Called (o : Options) (c : Call) (answer : Answer) (m : Machine) : Prop where
  /-- A parser that was never used answers the same, and is the same afterwards. -/
  fresh : ({ options := o } : Machine).call c = .ok (answer, m)
  errors_eq : m.errors = 0 ∨ m.errors = 1
  done_iff_errors : m.done = true ↔ m.errors = 1
  done_iff_failed : m.done = true ↔ ∃ text e, c = .parse text ∧ answer = some (.error e)
  symbols_set : ∀ text, c = .setPattern text → m.symbols = []
  symbols_parsed : ∀ text t, c = .parse text → answer = some (.ok t) →
    m.symbols = (o.dialect.literals text.toList).eraseDups
  /-- Of a text that is wrong only what is before the error was taken, and no text that begins
  like it up to the error is told apart from it. -/
  symbols_failed : ∀ text e, c = .parse text → answer = some (.error e) →
    m.cursor = e.offset ∧ e.offset ≤ text.toList.length ∧
      m.symbols = (o.dialect.literals (text.toList.take e.offset)).eraseDups ∧
        ∀ other : String, other.toList.take (e.offset + 1) = text.toList.take (e.offset + 1) →
          ∃ m', ({ options := o } : Machine).call (.parse other) = .ok (answer, m') ∧
            m'.view = m.view

/-- A pattern that is set is not read, so nothing is known of it yet: no error, and no
symbol. -/
theorem called_setPattern (m : Machine) (pattern : String) :
    Called m.options (.setPattern pattern) none (m.setPattern pattern) := by
  have hshows := m.setPattern_refines pattern
  have herrors : (m.setPattern pattern).errors = 0 := hshows.errors_eq
  have hdone : (m.setPattern pattern).done = false := hshows.done_eq
  exact {
    fresh := rfl
    errors_eq := .inl herrors
    done_iff_errors := by simp [hdone, herrors]
    done_iff_failed := by simp [hdone]
    symbols_set := fun _ _ => congrArg Parser.symbols hshows.view_eq
    symbols_parsed := fun _ _ h => nomatch h
    symbols_failed := fun _ _ h => nomatch h }

/-- A call on a parser that was never used. -/
theorem call_parse_fresh {answer : Except SyntaxError ParseTree} {m m' : Machine}
    (h : m.parse pattern = .ok (answer, m')) :
    ({ options := m.options } : Machine).call (.parse pattern) = .ok (some answer, m') := by
  have hparse : ({ options := m.options } : Machine).parse pattern = m.parse pattern := rfl
  rw [call, hparse, h]
  rfl

/-- What a parse answers, and what it shows afterwards, where the pattern has no errors.
It is what the parser of the grammar answers, whatever the machine was used for before. -/
theorem exists_parse_eq_tree (m : Machine) (h : firstError? m.options pattern = none) :
    ∃ t m', m.parse pattern = .ok (.ok t, m') ∧ m'.Shows {
      options := m.options
      symbols := (m.options.dialect.literals pattern.toList).eraseDups } := by
  obtain ⟨answer, m', hm', hanswer, hshows, -⟩ := m.parse_refines pattern
  obtain ⟨t, hparse⟩ := m.view.exists_parse_eq h
  rw [hparse] at hanswer hshows
  cases answer with
  | ok t => exact ⟨t, m', hm', hshows⟩
  | error e => exact nomatch hanswer

/-- And where it has one: the cursor is at the error, and the literals are those before
it. -/
theorem exists_parse_eq_firstError (m : Machine) (h : firstError? m.options pattern = some e) :
    e.offset ≤ pattern.toList.length ∧ ∃ m', m.parse pattern = .ok (.error e, m') ∧
      m'.cursor = e.offset ∧ m'.Shows {
        options := m.options
        symbols := (m.options.dialect.literals (pattern.toList.take e.offset)).eraseDups
        error? := some e } := by
  obtain ⟨answer, m', hm', hanswer, hshows, hcursor⟩ := m.parse_refines pattern
  obtain ⟨hle, hparse⟩ := m.view.parse_eq_of_firstError h
  rw [hparse] at hanswer hshows
  cases answer with
  | ok t => exact nomatch hanswer
  | error e' =>
    cases hanswer
    exact ⟨hle, m', hm', hcursor _ rfl, hshows⟩

/-- A call on any parser is described by the first error of its pattern, whatever was
called before. -/
theorem called_parse (m : Machine) (pattern : String) : ∃ answer m',
    m.parse pattern = .ok (answer, m') ∧ m'.options = m.options ∧
      Called m.options (.parse pattern) (some answer) m' := by
  cases hscan : firstError? m.options pattern with
  | none =>
    obtain ⟨t, m', hm', hshows⟩ := m.exists_parse_eq_tree hscan
    have herrors : m'.errors = 0 := hshows.errors_eq
    have hdone : m'.done = false := hshows.done_eq
    refine ⟨.ok t, m', hm', congrArg Parser.options hshows.view_eq, {
      fresh := call_parse_fresh hm'
      errors_eq := .inl herrors
      done_iff_errors := by simp [hdone, herrors]
      done_iff_failed := by simp [hdone]
      symbols_set := fun _ h => nomatch h
      symbols_parsed := ?_
      symbols_failed := fun _ _ _ h => nomatch h }⟩
    intro text t' htext _
    obtain rfl := Call.parse.inj htext
    exact congrArg Parser.symbols hshows.view_eq
  | some e =>
    obtain ⟨hle, m', hm', hcursor, hshows⟩ := m.exists_parse_eq_firstError hscan
    have herrors : m'.errors = 1 := hshows.errors_eq.trans (errors_firstErrorFrom hscan)
    have hdone : m'.done = true := hshows.done_eq
    refine ⟨.error e, m', hm', congrArg Parser.options hshows.view_eq, {
      fresh := call_parse_fresh hm'
      errors_eq := .inr herrors
      done_iff_errors := by simp [hdone, herrors]
      done_iff_failed := by simp [hdone]
      symbols_set := fun _ h => nomatch h
      symbols_parsed := fun _ _ _ h => nomatch h
      symbols_failed := ?_ }⟩
    intro text e' htext he
    obtain rfl := Call.parse.inj htext
    cases he
    refine ⟨hcursor, hle, congrArg Parser.symbols hshows.view_eq, ?_⟩
    intro other htake
    -- a text that begins like this one up to its error has the same error
    have hother : firstError? m.options other = some e := firstErrorFrom_of_take_eq hscan htake
    have hbefore : other.toList.take e.offset = pattern.toList.take e.offset := by
      have hshorter := congrArg (List.take e.offset) htake
      rwa [List.take_take, List.take_take, Nat.min_eq_left (Nat.le_succ _)] at hshorter
    obtain ⟨-, m'', hm'', -, hshows'⟩ := m.exists_parse_eq_firstError hother
    exact ⟨m'', call_parse_fresh hm'', by rw [hshows'.view_eq, hshows.view_eq, hbefore]⟩

/-- What a call answers and leaves depends on the call and the options only. This is one
step; a list of calls takes one after the other, and none of them changes the options. -/
theorem called_call (m : Machine) (c : Call) : ∃ answer m', m.call c = .ok (answer, m') ∧
    m'.options = m.options ∧ Called m.options c answer m' := by
  cases c with
  | setPattern pattern => exact ⟨none, _, rfl, rfl, called_setPattern m pattern⟩
  | parse pattern =>
    obtain ⟨answer, m', hm', hoptions, hcalled⟩ := called_parse m pattern
    refine ⟨some answer, m', ?_, hoptions, hcalled⟩
    rw [call, hm']
    rfl

/-- **A parser can be used again**: no call gets stuck, and each answers as a parser that
was never used. After it the parser knows of the last pattern only, up to its first error
if it has one. -/
theorem callAll_called (o : Options) (calls : List Call) :
    ∃ steps, ({ options := o } : Machine).callAll calls = .ok steps ∧
      List.Forall₂ (fun c step => Called o c step.1 step.2) calls steps := by
  -- options are all that a parser passes on to its next call
  have hrun : ∀ m : Machine, m.options = o → ∃ steps, m.callAll calls = .ok steps ∧
      List.Forall₂ (fun c step => Called o c step.1 step.2) calls steps := by
    induction calls with
    | nil => exact fun m _ => ⟨[], rfl, .nil⟩
    | cons c calls ih =>
      rintro m rfl
      obtain ⟨answer, m', hcall, hoptions, hcalled⟩ := called_call m c
      obtain ⟨steps, hrest, hsteps⟩ := ih m' hoptions
      refine ⟨(answer, m') :: steps, ?_, .cons hcalled hsteps⟩
      rw [callAll, hcall, ok_bind, hrest]
      rfl
  exact hrun _ rfl

end Machine

end Parser

end PatternAutomata
