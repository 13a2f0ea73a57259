import PatternAutomata.Parser.Machine
import PatternAutomata.Proofs.Parser.Consumed

/-!
# Pattern automata — a parser at work reads what the grammar says

The rules of the grammar are read off a parser at work. It goes through the same
places of the pattern, and lists the nodes of what was read as it goes (`Added`).
Where reading halts, the parser notes the error and returns through all rules that
have not ended. They add nodes, but no loop of theirs goes on, so the parser stays
where it is, and knows what it knew there (`Halted`).

## Results

* `Agrees.bind`        — one rule after another; what comes after an error changes nothing.
* `agrees_regexp`      — every rule, at every depth.
* `setPattern_refines`, `parse_refines` — a parser at work answers and leaves what `Parser` says.
-/

namespace PatternAutomata

namespace Parser

namespace Machine

variable {o : Options} {pattern : String} {kind : SyntaxError.Kind} {s s' : Cursor} {m m' : Machine}
  {e l r : Expr Char} {node : Nat}

-- ---------------------------------------------------------------------------
-- Places of a pattern
-- ---------------------------------------------------------------------------

/-- The parser is at a place of the pattern, and knows the literals before it. It keeps
each symbol once and each position as it comes, which are two views of the same literals. -/
structure At (o : Options) (pattern : String) (s : Cursor) (m : Machine) : Prop where
  options_eq : m.options = o
  pattern_eq : m.pattern = pattern
  chars_eq : m.chars.toList = pattern.toList
  cursor_eq : m.cursor = s.offset
  rest_eq : s.rest = pattern.toList.drop s.offset
  symbols_eq : m.symbols = s.literals.reverse.eraseDups
  positions_eq : m.positions.toList = s.literals.reverse.map .char

/-- The parser is at the place of the cursor and has met no error, so whatever it does
next counts. (After an error it goes on as well, which is why this is asked for before
every step.) -/
structure Reads (o : Options) (pattern : String) (s : Cursor) (m : Machine) : Prop
    extends At o pattern s m where
  done_eq : m.done = false
  errors_eq : m.errors = 0
  error?_eq : m.error? = none

/-- It has met its only error there. The count stands in the message too, as it was when
the error was noted. -/
structure Halted (o : Options) (pattern : String) (kind : SyntaxError.Kind) (s : Cursor)
    (m : Machine) : Prop extends At o pattern s m where
  done_eq : m.done = true
  errors_eq : m.errors = 1
  error?_eq : m.error? = some { kind := kind, offset := s.offset, errors := 1 }

/-- The parser sees the token at its place, as it looks at the character anew after every
step. -/
theorem At.lookahead_eq (h : m.At o pattern s) : m.lookahead = s.token o.dialect := by
  rw [m.lookahead_eq, tokenAt, ← Array.getElem?_toList, h.options_eq, h.chars_eq, h.cursor_eq,
    ← List.head?_drop, Cursor.token, ← h.rest_eq]
  cases s.rest <;> rfl

theorem At.size_positions (h : m.At o pattern s) : m.positions.size = s.literals.length := by
  rw [← Array.length_toList, h.positions_eq, List.length_map, List.length_reverse]

/-- Nodes say nothing about the place. -/
theorem Reads.push (h : m.Reads o pattern s) (node : Node) : (m.push node).Reads o pattern s :=
  { h with }

theorem Halted.push (h : m.Halted o pattern kind s) (node : Node) :
    (m.push node).Halted o pattern kind s :=
  { h with }

/-- A token that is no literal is passed over, and no more is known. -/
theorem Reads.advance (h : m.Reads o pattern s) : m.advance.Reads o pattern s.advance :=
  { h with
    cursor_eq := congrArg (· + 1) h.cursor_eq
    rest_eq := by
      show s.rest.tail = pattern.toList.drop (s.offset + 1)
      rw [h.rest_eq, List.tail_drop] }

/-- A literal is passed over and remembered. The parser keeps a list of distinct symbols,
the cursor all literals that it went over, so the two agree up to repetition. -/
theorem Reads.advanceOver (h : m.Reads o pattern s) (c : Char) :
    (m.advance.literal c).Reads o pattern (s.advanceOver c) :=
  { h.advance with
    symbols_eq := by
      show (if m.symbols.contains c then m.symbols else m.symbols ++ [c]) =
        (c :: s.literals).reverse.eraseDups
      rw [h.symbols_eq, List.reverse_cons, List.eraseDups_append]
      -- both sides keep the first of equal literals
      by_cases hc : c ∈ s.literals <;> simp [hc, List.removeAll, List.eraseDups_cons]
    positions_eq := by
      show (m.positions.push (.char c)).toList = (c :: s.literals).reverse.map .char
      rw [Array.toList_push, h.positions_eq, List.reverse_cons, List.map_append]
      rfl }

/-- The first error is noted with the place where it is met. No other one will take its
place, as the parser is done from here on. -/
theorem Reads.fail (h : m.Reads o pattern s) (kind : SyntaxError.Kind) :
    (m.fail kind).Halted o pattern kind s :=
  { h with
    done_eq := rfl
    errors_eq := congrArg (· + 1) h.errors_eq
    error?_eq := by
      show (m.error? <|> some ⟨kind, m.cursor, m.errors + 1⟩) = _
      rw [h.error?_eq, h.cursor_eq, h.errors_eq]
      rfl }

-- ---------------------------------------------------------------------------
-- Nodes
-- ---------------------------------------------------------------------------

/-- What `m` lists next when it reads `e`: its leaves get the positions that come next. -/
def numbered (m : Machine) (e : Expr Char) : Expr (Letter × Nat) :=
  (e.map Letter.char).number (m.positions.size + 1)

/-- Between the two places the parser has read `e` and added its nodes, of which `node` is
the last. Of the nodes that were there before nothing is said: those of `e` come behind
them. -/
structure Added (o : Options) (pattern : String) (s : Cursor) (m : Machine) (e : Expr Char)
    (s' : Cursor) (node : Nat) (m' : Machine) : Prop extends Reads o pattern s' m' where
  literals_eq : s'.literals.reverse = s.literals.reverse ++ e.leaves
  nodes_eq : m'.nodes = (m.numbered e).pushNodes m.nodes
  node_eq : node = m'.top

namespace Added

variable {s₁ s₂ : Cursor} {m₁ m₂ : Machine} {left right : Nat}

/-- As many positions as leaves were added, so the operand that is read next is numbered
behind them. -/
theorem numbered_eq (hs : m.At o pattern s) (h : Added o pattern s m l s₁ left m₁)
    (e : Expr Char) :
    m₁.numbered e = (e.map Letter.char).number (m.positions.size + 1 + l.width) := by
  have hlength := congrArg List.length h.literals_eq
  simp only [List.length_append, List.length_reverse, Expr.length_leaves] at hlength
  rw [numbered, h.toAt.size_positions, hs.size_positions, hlength, Nat.add_right_comm]

/-- Nothing is read, and a node for nothing is added. -/
theorem epsilon (h : m.Reads o pattern s) :
    Added o pattern s m .epsilon s (m.push .epsilon).top (m.push .epsilon) :=
  { h.push .epsilon with
    literals_eq := (List.append_nil _).symm
    nodes_eq := rfl
    node_eq := rfl }

/-- A literal is read, and its node has the position that comes next. Numbering by the
table of positions and numbering by the literals read so far are the same. -/
theorem leaf (h : m.Reads o pattern s) (c : Char) :
    Added o pattern s m (.leaf c) (s.advanceOver c) (m.advance.literal c).top
      (m.advance.literal c) :=
  { h.advanceOver c with
    literals_eq := List.reverse_cons
    nodes_eq := by
      show m.nodes.push (.char c (m.positions.push (.char c)).size) = _
      rw [Array.size_push]
      rfl
    node_eq := rfl }

/-- A star comes after its operand, whose node was pushed last. -/
theorem star (h : Added o pattern s m e s' node m') :
    Added o pattern s m (.star e) s'.advance (m'.advance.push (.star node)).top
      (m'.advance.push (.star node)) :=
  { h.advance.push (.star node) with
    literals_eq := h.literals_eq
    nodes_eq := by
      show m'.nodes.push (.star node) = _
      rw [h.node_eq, top, h.nodes_eq]
      rfl
    node_eq := rfl }

/-- What was read after a token that is not a leaf. -/
theorem behind (h : Added o pattern s.advance m.advance e s' node m') :
    Added o pattern s m e s' node m' :=
  { h with }

/-- Brackets around it add nothing. -/
theorem brackets (h : Added o pattern s.advance m.advance e s' node m') :
    Added o pattern s m e s'.advance node m'.advance :=
  { h.toReads.advance, h.behind with }

variable (hs : m.At o pattern s) (hl : Added o pattern s m l s₁ left m₁)
  (hr : Added o pattern s₁ m₁ r s₂ right m₂)

include hl hr

theorem literals_eq_append :
    s₂.literals.reverse = s.literals.reverse ++ (l.leaves ++ r.leaves) := by
  rw [hr.literals_eq, hl.literals_eq, List.append_assoc]

include hs

/-- The right operand is numbered and listed after the left one. -/
theorem nodes_eq_pushNodes : m₂.nodes = ((r.map Letter.char).number
    (m.positions.size + 1 + (l.map Letter.char).width)).pushNodes
      ((m.numbered l).pushNodes m.nodes) := by
  rw [Expr.width_map, ← numbered_eq hs hl, ← hl.nodes_eq]
  exact hr.nodes_eq

/-- Behind both operands stands the node that joins them. The parser knows its operands by
what was on top when they were finished, the tree by the sizes of its parts. -/
theorem concat : Added o pattern s m (.concat l r) s₂ (m₂.push (.concat left right)).top
    (m₂.push (.concat left right)) :=
  { hr.push (.concat left right) with
    literals_eq := literals_eq_append hl hr
    nodes_eq := by
      show m₂.nodes.push (.concat left right) = _
      rw [hl.node_eq, hr.node_eq, top, top, nodes_eq_pushNodes hs hl hr, hl.nodes_eq]
      rfl
    node_eq := rfl }

/-- The same for the two operators that have a sign: what the grammar makes of the
operands and what node the parser pushes belong to the same operator. -/
theorem operator (op : Operator) : Added o pattern s m (op.apply l r) s₂
    (m₂.push (op.node left right)).top (m₂.push (op.node left right)) :=
  { hr.push (op.node left right) with
    literals_eq := by
      rw [literals_eq_append hl hr]
      cases op <;> rfl
    nodes_eq := by
      show m₂.nodes.push (op.node left right) = _
      rw [hl.node_eq, hr.node_eq, top, top, nodes_eq_pushNodes hs hl hr, hl.nodes_eq]
      cases op <;> rfl
    node_eq := rfl }

end Added

-- ---------------------------------------------------------------------------
-- Agreement
-- ---------------------------------------------------------------------------

/-- The parser adds what the rule of the grammar reads. It halts where that does, and it
gets stuck on the same token. What it has listed when it halts is left open: nobody sees
it. -/
def Agrees {least least' : Nat} (o : Options) (pattern : String)
    (x : Except Halt (Reading s least)) (y : Except Fault (Ran m least')) : Prop :=
  match x with
  | .ok r => ∃ q, y = .ok q ∧ Added o pattern s m r.expr r.stop q.node q.after
  | .error ⟨.syntaxError kind, stop⟩ => ∃ q, y = .ok q ∧ q.after.Halted o pattern kind stop
  | .error ⟨.leftover token, _⟩ => y = .error (.leftover token)

/-- Once the parser has halted, the rule changes nothing but the nodes. -/
def Returns {least least' : Nat} (f : Ran m least → Except Fault (Ran m' least')) : Prop :=
  ∀ q, q.after.done = true → ∃ q', f q = .ok q' ∧ ∃ nodes,
    q'.after = { q.after with nodes := nodes }

section Agree

variable {least least' more more' : Nat} {x : Except Halt (Reading s least)}
  {y : Except Fault (Ran m least')}

/-- One rule after another. What comes after an error changes nothing, though the parser
runs it: the reader of the grammar stops at once, and the parser returns through the rules
that are open. -/
theorem Agrees.bind {f : Reading s least → Except Halt (Reading s' more)}
    {g : Ran m least' → Except Fault (Ran m' more')} (h : Agrees o pattern x y)
    (hreads : ∀ r q, Added o pattern s m r.expr r.stop q.node q.after →
      Agrees o pattern (f r) (g q))
    (hreturns : Returns g) : Agrees o pattern (x >>= f) (y >>= g) := by
  cases x with
  | ok r =>
    obtain ⟨q, rfl, hq⟩ := h
    exact hreads r q hq
  | error halt =>
    obtain ⟨cause, stop⟩ := halt
    cases cause with
    | syntaxError kind =>
      obtain ⟨q, rfl, hq⟩ := h
      -- no field that `Halted` speaks of is one that a returning rule changes
      obtain ⟨q', hq', nodes, hafter⟩ := hreturns q hq.done_eq
      exact ⟨q', hq', hafter ▸ { hq with }⟩
    | leftover token =>
      obtain rfl : y = .error (.leftover token) := h
      rfl

/-- A rule that only makes something else of what was read agrees if its parts do. If the
parser has stopped, then what it makes is not looked at, but it must not touch the error. -/
theorem Agrees.map {f : Reading s least → Reading s' more} {g : Ran m least' → Ran m' more'}
    (h : Agrees o pattern x y)
    (hreads : ∀ r q, Added o pattern s m r.expr r.stop q.node q.after →
      Added o pattern s' m' (f r).expr (f r).stop (g q).node (g q).after)
    (hreturns : ∀ q, q.after.done = true → (g q).after = q.after) :
    Agrees o pattern (x.map f) (do return g (← y)) := by
  have hmap : x.map f = x >>= fun r => .ok (f r) := by cases x <;> rfl
  rw [hmap]
  refine h.bind (fun r q hq => ⟨g q, rfl, hreads r q hq⟩) ?_
  intro q hdone
  exact ⟨g q, rfl, q.after.nodes, hreturns q hdone⟩

end Agree

-- ---------------------------------------------------------------------------
-- Repetitions
-- ---------------------------------------------------------------------------

/-- The parser agrees with a rule of the grammar wherever it comes to. -/
def AgreesOn (o : Options) (pattern : String) (f : Rule.OperandReader o.dialect)
    (g : OperandRule) : Prop :=
  ∀ s m, Reads o pattern s m → Agrees o pattern (f s) (g m)

/-- It does so where a group is opened. -/
def AgreesOnGroups (o : Options) (pattern : String) (f : Rule.GroupReader o.dialect)
    (g : GroupRule) : Prop :=
  ∀ s m, Reads o pattern s m → ∀ h hdone h', Agrees o pattern (f s h) (g m hdone h')

variable {group : Rule.GroupReader o.dialect} {group' : GroupRule}
  {operand : Rule.OperandReader o.dialect} {operand' : OperandRule} {op : Operator}
  {origin : Cursor} {start : Machine} {least least' : Nat}

/-- An atom is looked up by the same token on both sides. A literal and a group are read;
at any other token the operand is left out. -/
theorem agrees_atom (hgroup : AgreesOnGroups o pattern group group') :
    AgreesOn o pattern (Rule.atom group) (atom group') := by
  intro s m hm
  have hlookahead := hm.lookahead_eq
  unfold atom
  rw [dif_neg (by simp [hm.done_eq])]
  split
  · rename_i c h
    obtain ⟨r, hr, hexpr, hstop⟩ := Rule.atom_of_literal group (hlookahead.symm.trans h)
    rw [hr]
    refine ⟨_, rfl, ?_⟩
    rw [hexpr, hstop]
    exact .leaf hm c
  · rename_i h
    obtain ⟨f, hf, hsame⟩ := Rule.atom_of_opening group (hlookahead.symm.trans h)
    rw [hf]
    refine (hgroup s m hm _ _ _).map ?_ fun _ _ => rfl
    intro r q hq
    rw [(hsame r).1, (hsame r).2]
    exact hq
  -- no atom begins here: it is left out, and a node for nothing is added
  all_goals
    rename_i h
    obtain ⟨r, hr, hexpr, hstop⟩ := Rule.atom_of_not_startsFactor group (s := s)
      (by rw [← hlookahead, h]; rfl)
    rw [hr]
    refine ⟨_, rfl, ?_⟩
    rw [hexpr, hstop]
    exact .epsilon hm

theorem stars_of_done {r : Ran start least} (h : r.after.done = true) : stars r = r := by
  rw [stars, dif_neg (by simp [h])]

/-- Star by star both sides take the same, as they see the same token. The induction is on
what the grammar reads; the parser follows it. -/
theorem added_stars (r : Reading origin least) (q : Ran start least')
    (h : Added o pattern origin start r.expr r.stop q.node q.after) :
    Added o pattern origin start (Rule.stars o.dialect r).expr (Rule.stars o.dialect r).stop
      (stars q).node (stars q).after := by
  fun_induction Rule.stars o.dialect r generalizing q with
  | case1 r htoken hlt ih =>
    rw [stars, dif_pos ⟨h.done_eq, h.lookahead_eq.trans htoken⟩]
    exact ih _ h.star
  | case2 r htoken =>
    rw [stars, dif_neg fun hstar => htoken (h.lookahead_eq.symm.trans hstar.2)]
    exact h

/-- An atom and its stars. -/
theorem agrees_repetition (hgroup : AgreesOnGroups o pattern group group') :
    AgreesOn o pattern (Rule.repetition group) (repetition group') := by
  intro s m hm
  refine (agrees_atom hgroup s m hm).map added_stars ?_
  intro q hdone
  rw [stars_of_done hdone]

-- ---------------------------------------------------------------------------
-- Chains of operands
-- ---------------------------------------------------------------------------

theorem factors_of_done {left : Ran start least} (h : left.after.done = true) :
    factors group' left = .ok left := by
  rw [factors, dif_neg (by simp [h])]

/-- Factor by factor. What was read so far is one expression, which the next factor is
joined to. -/
theorem agrees_factors (hgroup : AgreesOnGroups o pattern group group')
    (hstart : start.At o pattern origin) (left : Reading origin least) (left' : Ran start least')
    (hleft : Added o pattern origin start left.expr left.stop left'.node left'.after) :
    Agrees o pattern (Rule.factors group left) (factors group' left') := by
  -- on what is left to read behind the last factor
  generalize hn : left.stop.rest.length = n
  induction n using Nat.strongRecOn generalizing left left' with
  | ind n ih =>
    have hlookahead := hleft.lookahead_eq
    cases h : (left.stop.token o.dialect).startsFactor with
    | true =>
      obtain ⟨f, hf, hmade⟩ := Rule.factors_of_startsFactor group h
      rw [hf, factors, dif_pos ⟨hleft.done_eq, by rw [hlookahead, h]⟩]
      refine (agrees_repetition hgroup _ _ hleft.toReads).bind ?_ ?_
      · intro right right' hright
        have hle := right.stop_le
        have hleast := Cursor.least_eq_one h
        refine ih right.stop.rest.length (by omega) _ _ ?_ (by rw [(hmade right).2])
        rw [(hmade right).1, (hmade right).2]
        exact .concat hstart hleft hright
      · -- a factor that failed is still joined to those before it, and then the loop ends
        intro right' hdone
        exact ⟨_, factors_of_done hdone, _, rfl⟩
    | false =>
      rw [Rule.factors_of_not_startsFactor h, factors, dif_neg (by simp [hlookahead, h])]
      exact ⟨left', rfl, hleft⟩

/-- A factor and those behind it. -/
theorem agrees_concatenation (hgroup : AgreesOnGroups o pattern group group') :
    AgreesOn o pattern (Rule.concatenation group) (concatenation group') := by
  intro s m hm
  refine (agrees_repetition hgroup s m hm).bind
    (fun left left' => agrees_factors hgroup hm.toAt left left') ?_
  intro left' hdone
  exact ⟨left', factors_of_done hdone, _, rfl⟩

theorem operands_of_done {left : Ran start least} (h : left.after.done = true) :
    operands op operand' left = .ok left := by
  rw [operands, dif_neg (by simp [h])]

/-- Operand by operand, with their sign before each of them. The sign itself adds no node;
the node of the operator comes behind both operands. -/
theorem agrees_operands (op : Operator) (hoperand : AgreesOn o pattern operand operand')
    (hstart : start.At o pattern origin) (left : Reading origin least) (left' : Ran start least')
    (hleft : Added o pattern origin start left.expr left.stop left'.node left'.after) :
    Agrees o pattern (Rule.operands op operand left) (operands op operand' left') := by
  -- on what is left to read behind the last operand
  generalize hn : left.stop.rest.length = n
  induction n using Nat.strongRecOn generalizing left left' with
  | ind n ih =>
    have hlookahead := hleft.lookahead_eq
    by_cases h : left.stop.token o.dialect = op.token
    · obtain ⟨f, hf, hmade⟩ := Rule.operands_of_eq operand h
      rw [hf, operands, dif_pos ⟨hleft.done_eq, hlookahead.trans h⟩]
      refine (hoperand _ _ hleft.toReads.advance).bind ?_ ?_
      · intro right right' hright
        have hle := right.stop_le
        have hlt := Cursor.length_advance_lt (h ▸ op.token_ne_finish)
        refine ih right.stop.rest.length (by omega) _ _ ?_ (by rw [(hmade right).2])
        rw [(hmade right).1, (hmade right).2]
        exact .operator hstart hleft hright.behind op
      · intro right' hdone
        exact ⟨_, operands_of_done hdone, _, rfl⟩
    · rw [Rule.operands_of_ne h, operands, dif_neg (by simp [hlookahead, h])]
      exact ⟨left', rfl, hleft⟩

/-- A whole chain: its first operand, and the others. If the parser stops within the
first, then the loop for the others ends at once. -/
theorem agrees_chain (op : Operator) (hoperand : AgreesOn o pattern operand operand') :
    AgreesOn o pattern (fun s => do Rule.operands op operand (← operand s))
      (fun m => do operands op operand' (← operand' m)) := by
  intro s m hm
  refine (hoperand s m hm).bind
    (fun left left' => agrees_operands op hoperand hm.toAt left left') ?_
  intro left' hdone
  exact ⟨left', operands_of_done hdone, _, rfl⟩

theorem agrees_alternation (hgroup : AgreesOnGroups o pattern group group') :
    AgreesOn o pattern (Rule.alternation group) (alternation group') :=
  agrees_chain .bar (agrees_concatenation hgroup)

theorem agrees_interleaving (hgroup : AgreesOnGroups o pattern group group') :
    AgreesOn o pattern (Rule.interleaving group) (interleaving group') :=
  agrees_chain .amp (agrees_alternation hgroup)

-- ---------------------------------------------------------------------------
-- Groups
-- ---------------------------------------------------------------------------

/-- Both sides ask the dialect which of the two loops an expression is, and they ask the
same one, since a parser keeps its options. -/
theorem agrees_expression (hgroup : AgreesOnGroups o pattern group group') :
    AgreesOn o pattern (Rule.expression group) (expression group') := by
  intro s m hm
  unfold Rule.expression expression
  rw [hm.options_eq]
  split
  · exact agrees_interleaving hgroup s m hm
  · exact agrees_alternation hgroup s m hm

/-- At the last depth every group is an error, and the parser adds a node for what it does
not read. -/
theorem agrees_tooDeep : AgreesOnGroups o pattern
    (fun s _ => throw (.error (.tooDeep o.maxDepth) s)) tooDeep := by
  intro s m hm h hdone h'
  obtain rfl := hm.options_eq
  exact ⟨_, rfl, (hm.fail _).push .epsilon⟩

/-- Where the lookahead does not belong, the parser says so as the grammar does. -/
theorem unexpected_eq (h : m.At o pattern s) : m.unexpected =
    match (Halt.unexpected o.dialect s).cause with
    | .syntaxError kind => .ok kind
    | .leftover token => .error (.leftover token) := by
  rw [unexpected, Halt.unexpected, h.lookahead_eq]
  cases s.token o.dialect <;> rfl

/-- A group is the expression in it, with its brackets taken. If there is no `)`, the
token that stands there says which error it is. -/
theorem agrees_groupOf (hinside : AgreesOn o pattern operand operand') :
    AgreesOnGroups o pattern (Rule.groupOf operand) (groupOf operand') := by
  intro s m hm h hdone h'
  refine (hinside _ _ hm.advance).bind ?_ ?_
  · intro inner inner' hinner
    have hlookahead := hinner.lookahead_eq
    rw [dif_neg (by simp [hinner.done_eq])]
    split
    · rename_i hclosing
      rw [dif_pos (hlookahead.trans hclosing)]
      exact ⟨_, rfl, hinner.brackets⟩
    · rename_i hclosing
      rw [dif_neg (by rwa [hlookahead]), unexpected_eq hinner.toAt]
      have hstop : (Halt.unexpected o.dialect inner.stop).cursor = inner.stop := rfl
      -- the error is looked at only through where it is and what it is
      generalize Halt.unexpected o.dialect inner.stop = halt at hstop ⊢
      obtain ⟨cause, stop⟩ := halt
      obtain rfl : stop = inner.stop := hstop
      cases cause with
      | syntaxError kind => exact ⟨_, rfl, hinner.fail kind⟩
      | leftover token => rfl
  · intro inner' hdone'
    exact ⟨_, dif_pos hdone', _, rfl⟩

/-- Every rule, at every depth. -/
theorem agrees_regexp (o : Options) (pattern : String) (room : Nat) :
    AgreesOn o pattern (Rule.regexp o.dialect o.maxDepth room) (regexp room) := by
  induction room with
  | zero => exact agrees_expression agrees_tooDeep
  | succ room ih => exact agrees_expression (agrees_groupOf ih)

-- ---------------------------------------------------------------------------
-- Whole patterns
-- ---------------------------------------------------------------------------

/-- A pattern that is set has not been looked at. All that an earlier pattern has left is
gone, so nothing has to be known about the parser before. -/
theorem reads_setPattern (m : Machine) (pattern : String) :
    (m.setPattern pattern).Reads m.options pattern { rest := pattern.toList } where
  options_eq := rfl
  pattern_eq := rfl
  chars_eq := rfl
  cursor_eq := rfl
  rest_eq := rfl
  symbols_eq := rfl
  positions_eq := rfl
  done_eq := rfl
  errors_eq := rfl
  error?_eq := rfl

/-- The parser reads a pattern to its end, or halts where the reader of the grammar does.
What is left behind a whole expression is an error of its own, unless it is the end. -/
theorem agrees_whole (hm : m.Reads o pattern { rest := pattern.toList }) :
    match readAll o pattern.toList with
    | .ok (body, stop) => ∃ node m', m.whole = .ok (node, m') ∧
        Added o pattern { rest := pattern.toList } m body stop node m'
    | .error ⟨.syntaxError kind, stop⟩ => ∃ node m', m.whole = .ok (node, m') ∧
        m'.Halted o pattern kind stop
    | .error ⟨.leftover token, _⟩ => m.whole = .error (.leftover token) := by
  have hagrees := agrees_regexp o pattern o.maxDepth _ m hm
  rw [readAll, whole, hm.options_eq]
  cases hr : Rule.regexp o.dialect o.maxDepth o.maxDepth { rest := pattern.toList } with
  | error halt =>
    rw [hr] at hagrees
    obtain ⟨cause, stop⟩ := halt
    cases cause with
    | syntaxError kind =>
      obtain ⟨q, hq, hhalted⟩ := hagrees
      rw [hq]
      exact ⟨q.node, q.after, if_pos hhalted.done_eq, hhalted⟩
    | leftover token =>
      have hq : regexp o.maxDepth m = .error (.leftover token) := hagrees
      rw [hq]
      rfl
  | ok r =>
    rw [hr] at hagrees
    obtain ⟨q, hq, hadded⟩ := hagrees
    have hlookahead := hadded.lookahead_eq
    rw [hq, ok_bind, ok_bind, if_neg (by simp [hadded.done_eq]), unexpected_eq hadded.toAt]
    rw [hlookahead]
    -- behind the expression: the end, a bracket, an invalid character, or what is left over
    cases htoken : r.stop.token o.dialect with
    | finish => exact ⟨q.node, q.after, rfl, hadded⟩
    | closing => exact ⟨q.node, q.after.fail .unmatchedClose, rfl, hadded.fail _⟩
    | invalid c =>
      simp only [Halt.unexpected, htoken]
      exact ⟨q.node, q.after.fail _, rfl, hadded.fail _⟩
    | _ =>
      simp only [Halt.unexpected, htoken]
      rfl

/-- The nodes of what was read, with the end marker behind them, are those of the parse
tree. Its leaf has the last position, and the node that joins it is the last of all. -/
theorem tree_eq
    (h : Added o pattern { rest := pattern.toList } (m.setPattern pattern) e s' node m') :
    (m'.endMarker.push (.concat node m'.endMarker.top)).tree = .ofExpr pattern o.dialect e := by
  have hliterals : s'.literals.reverse = e.leaves := h.literals_eq
  -- as many positions as literals, so the end marker's comes next
  have hsize : m'.positions.size = e.width := by
    rw [h.size_positions, ← List.length_reverse, hliterals, Expr.length_leaves]
  have hnodes : (m'.endMarker.push (.concat node m'.endMarker.top)).nodes.toList =
      (ParseTree.ofExpr pattern o.dialect e).nodes := by
    show ((m'.nodes.push (.endMarker (m'.positions.push .endMarker).size)).push
      (.concat node ((m'.nodes.push _).size - 1))).toList = (e.marked.pushNodes #[]).toList
    rw [Expr.marked_eq, h.node_eq, top, h.nodes_eq, Array.size_push, hsize]
    rfl
  have hsymbols : m'.symbols = (ParseTree.ofExpr pattern o.dialect e).symbols := by
    rw [h.symbols_eq, hliterals, ParseTree.symbols_ofExpr]
  have hpositions : m'.positions.push .endMarker =
      (ParseTree.ofExpr pattern o.dialect e).positions := by
    rw [← Array.toList_inj, ParseTree.positions_ofExpr, Expr.leaves_marked, List.zipIdx_map_fst,
      Array.toList_push, h.positions_eq, hliterals]
  show ParseTree.mk m'.pattern m'.options.dialect _ m'.symbols (m'.positions.push .endMarker) = _
  rw [h.pattern_eq, h.options_eq, hnodes, hsymbols, hpositions]
  rfl

/-- A parser without an error answers its tree and keeps no part of it. What it checks
first is taken as known here; the check of a tree that was read never fails. -/
theorem result_eq_ok (herror : m.error? = none) (hcheck : m.tree.check = .ok ()) :
    m.result = .ok (.ok m.tree, { m with nodes := #[], positions := #[] }) := by
  unfold result
  split
  · rename_i e he
    cases herror.symm.trans he
  · rw [hcheck]
    rfl

/-- A parser with an error answers it, whatever nodes it has made in the meantime. -/
theorem result_eq_error {e : SyntaxError} (herror : m.error? = some e) :
    m.result = .ok (.error e, m) := by
  unfold result
  split
  · rename_i e' he
    rw [Option.some.inj (herror.symm.trans he)]
  · rename_i hnone
    cases herror.symm.trans hnone

/-- All that is known of the parser is what it shows: its options, symbols and first
error, the number of errors, and whether it is done. -/
structure Shows (m : Machine) (p : Parser) : Prop where
  view_eq : m.view = p
  errors_eq : m.errors = p.errors
  done_eq : m.done = p.isDone

/-- A parse of what the grammar reads: the tree passes its check, so the parser gives it
out. -/
theorem exists_parse_eq_ok (m : Machine) {body : Expr Char} {stop : Cursor}
    (h : readAll m.options pattern.toList = .ok (body, stop)) :
    ∃ m', m.parse pattern = .ok (.ok (.ofExpr pattern m.options.dialect body), m') ∧ m'.Shows {
      options := m.options
      symbols := stop.literals.reverse.eraseDups } := by
  have hwhole := agrees_whole (reads_setPattern m pattern)
  rw [h] at hwhole
  obtain ⟨node, m', hm', hadded⟩ := hwhole
  have htree := tree_eq hadded
  have hresult := result_eq_ok (m := m'.endMarker.push (.concat node m'.endMarker.top))
    hadded.error?_eq (htree ▸ ParseTree.check_ofExpr)
  -- the marker and the root are added, and the nodes are given away with the tree
  refine ⟨{ m'.endMarker.push (.concat node m'.endMarker.top) with nodes := #[], positions := #[] },
    ?_, {
    view_eq := by
      show Parser.mk m'.options m'.symbols m'.error? = _
      rw [hadded.options_eq, hadded.symbols_eq, hadded.error?_eq]
    errors_eq := hadded.errors_eq
    done_eq := hadded.done_eq }⟩
  rw [parse, hm', ok_bind, ← htree]
  exact hresult

/-- A parse where the reader of the grammar halts. The nodes that were listed by then are
never looked at, since the error is what is answered. -/
theorem exists_parse_eq_error (m : Machine) {stop : Cursor}
    (h : readAll m.options pattern.toList = .error ⟨.syntaxError kind, stop⟩) :
    ∃ m', m.parse pattern = .ok (.error ⟨kind, stop.offset, 1⟩, m') ∧ m'.cursor = stop.offset ∧
      m'.Shows {
        options := m.options
        symbols := stop.literals.reverse.eraseDups
        error? := some ⟨kind, stop.offset, 1⟩ } := by
  have hwhole := agrees_whole (reads_setPattern m pattern)
  rw [h] at hwhole
  obtain ⟨node, m', hm', hhalted⟩ := hwhole
  -- the marker is added after an error too, but the answer is the error
  have hresult := result_eq_error (m := m'.endMarker.push (.concat node m'.endMarker.top))
    hhalted.error?_eq
  refine ⟨m'.endMarker.push (.concat node m'.endMarker.top), ?_, hhalted.cursor_eq, {
    view_eq := by
      show Parser.mk m'.options m'.symbols m'.error? = _
      rw [hhalted.options_eq, hhalted.symbols_eq, hhalted.error?_eq]
    errors_eq := hhalted.errors_eq
    done_eq := hhalted.done_eq }⟩
  rw [parse, hm', ok_bind]
  exact hresult

end Machine

-- ---------------------------------------------------------------------------
-- Refinement
-- ---------------------------------------------------------------------------

/-- What the parser of the grammar answers for a pattern that is read to its end: the
checked tree, and the distinct literals of the pattern. -/
theorem parse_of_readAll_eq_ok (p : Parser) {pattern : String} {body : Expr Char} {stop : Cursor}
    (h : readAll p.options pattern.toList = .ok (body, stop)) :
    p.parse pattern = (.ok (.ofExpr pattern p.options.dialect body), {
      options := p.options
      symbols := stop.literals.reverse.eraseDups }) := by
  have hread : read p.options pattern =
      { literals := stop.literals.reverse, result := .ok body } := by
    rw [read, h]
  have htree : (read p.options pattern).tree p.options pattern =
      .ok (.ofExpr pattern p.options.dialect body) :=
    compile_eq_ok_iff.mpr ⟨body, by rw [hread], rfl⟩
  rw [parse, htree, hread]

/-- And for one where its reader halts: the error with its place, and the literals that
come before. -/
theorem parse_of_readAll_eq_error (p : Parser) {pattern : String} {kind : SyntaxError.Kind}
    {stop : Cursor} (h : readAll p.options pattern.toList = .error ⟨.syntaxError kind, stop⟩) :
    p.parse pattern = (.error (.rejected ⟨kind, stop.offset, 1⟩), {
      options := p.options
      symbols := stop.literals.reverse.eraseDups
      error? := some ⟨kind, stop.offset, 1⟩ }) := by
  have hread : read p.options pattern =
      { literals := stop.literals.reverse, result := .error ⟨.syntaxError kind, stop⟩ } := by
    rw [read, h]
  rw [parse, hread]
  rfl

/-- Reading never gets stuck on a token: what the scan reports is always an error of the
text. -/
theorem readAll_ne_leftover (o : Options) (pattern : List Char) (token : Token) (stop : Cursor) :
    readAll o pattern ≠ .error ⟨.leftover token, stop⟩ := by
  intro h
  have hscan := readAll_eq o pattern
  cases hfirst : firstErrorFrom o 0 0 pattern with
  | none =>
    rw [hfirst] at hscan
    obtain ⟨r, hr⟩ := hscan
    exact nomatch hr.symm.trans h
  | some e =>
    rw [hfirst] at hscan
    obtain ⟨halt, hhalt, he⟩ := hscan
    obtain rfl := Except.error.inj (hhalt.symm.trans h)
    exact nomatch he

/-- A pattern that is set leaves what `Parser.reset` leaves. -/
theorem Machine.setPattern_refines (m : Machine) (pattern : String) :
    (m.setPattern pattern).Shows m.view.reset where
  view_eq := rfl
  errors_eq := rfl
  done_eq := rfl

/-- A parse at work answers as `Parser.parse` does, and leaves what it leaves. After an error it
stands where that is. -/
theorem Machine.parse_refines (m : Machine) (pattern : String) :
    ∃ answer m', m.parse pattern = .ok (answer, m') ∧
      (m.view.parse pattern).1 = answer.mapError .rejected ∧
        m'.Shows (m.view.parse pattern).2 ∧ ∀ e, answer = .error e → m'.cursor = e.offset := by
  cases hall : readAll m.options pattern.toList with
  | ok r =>
    obtain ⟨body, stop⟩ := r
    obtain ⟨m', hm', hshows⟩ := m.exists_parse_eq_ok hall
    rw [m.view.parse_of_readAll_eq_ok hall]
    exact ⟨_, m', hm', rfl, hshows, nofun⟩
  | error halt =>
    obtain ⟨cause, stop⟩ := halt
    cases cause with
    | syntaxError kind =>
      obtain ⟨m', hm', hcursor, hshows⟩ := m.exists_parse_eq_error hall
      rw [m.view.parse_of_readAll_eq_error hall]
      refine ⟨_, m', hm', rfl, hshows, ?_⟩
      rintro e ⟨⟩
      exact hcursor
    -- no text leaves a token over
    | leftover token => exact absurd hall (readAll_ne_leftover _ _ token stop)

end Parser

end PatternAutomata
