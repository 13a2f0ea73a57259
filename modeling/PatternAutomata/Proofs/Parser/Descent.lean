import PatternAutomata.Parser.Descent
import PatternAutomata.Proofs.Parser.Scan

/-!
# Pattern automata — what a parse shows as it goes

Whatever a run of a rule is part of, the place in the pattern changes only where a
character is taken. So what holds from one moment to the next (`Link`) holds along a
whole run, and the place never moves back.

Where a rule stops is not decided by the last thing it did. A loop only makes sure that
its own operator is not next; that no stronger operator is next either comes from the
operand before. So a loop starts with what its first operand has left (`Task.Starts`).

## Results

* `Run.unique`     — there is at most one run of a task.
* `Run.stopped`    — a rule stops where it may, or after an error.
* `Run.sound`      — rules are entered no deeper than allowed, and nothing is done after an error.
* `Run.keepsPlace` — the lookahead is the token at the place, which stays in the pattern.
-/

namespace PatternAutomata

variable {n : Nonterminal} {op : Operator} {token : Token}

theorem Operator.operand_ne_regexp (op : Operator) : op.operand ≠ .regexp := by
  cases op <;> nofun

-- ---------------------------------------------------------------------------
-- Tokens that are left
-- ---------------------------------------------------------------------------

namespace Nonterminal

/-- Behind a concatenation no factor can begin, and no star is left. -/
theorem stopsAt_concatenation (hstart : repetition.StopsAt token)
    (hend : ¬token.startsFactor = true) : concatenation.StopsAt token := by
  cases token with
  | literal | opening => exact absurd rfl hend
  | star => exact absurd rfl hstart
  | _ => simp [StopsAt]

/-- Behind a chain there is no operand that could go on, and no sign of its own. -/
theorem stopsAt_chain (hstart : op.operand.StopsAt token) (hend : ¬token = op.token) :
    (chain op).StopsAt token := by
  cases op <;> cases token <;> simp_all [StopsAt, Operator.operand, Operator.token]

/-- Where `&` is no operator, it is no token either. So a whole expression stops at the
same tokens in both dialects, though another chain has read it. -/
theorem stopsAt_regexp {d : Dialect} (hstart : (chain d.weakest).StopsAt token)
    (hamp : d.hasInterleave = false → token ≠ .amp) : regexp.StopsAt token := by
  cases hinterleave : d.hasInterleave with
  | true =>
    rw [Dialect.weakest, if_pos hinterleave] at hstart
    exact hstart
  | false =>
    rw [Dialect.weakest, if_neg (by simp [hinterleave])] at hstart
    cases token <;> simp_all [StopsAt]

variable {rule rule' : Nonterminal} {m : Parser.Machine} {P : Prop}

/-- A loop goes on as long as there was no error and `P` holds. So where it ends there was
one, or what the operand before has left is known together with the failure of `P`. -/
theorem Stopped.of_end (hstart : rule.Stopped m) (hend : ¬(m.done = false ∧ P))
    (h : rule.StopsAt m.lookahead → ¬P → rule'.StopsAt m.lookahead) : rule'.Stopped m := by
  cases hdone : m.done with
  | true => exact .inl hdone
  | false =>
    have hstops := hstart.resolve_left (by simp [hdone])
    exact .inr (h hstops fun hP => hend ⟨hdone, hP⟩)

end Nonterminal

namespace Parser

variable {t : Task} {depth node node₁ node₂ : Nat} {m m' m₁ m₂ : Machine} {x : Moment}
  {moments moments₁ moments₂ : List Moment}

namespace Machine

-- ---------------------------------------------------------------------------
-- Only one run
-- ---------------------------------------------------------------------------

/-- What is done next depends on the lookahead only, and on whether there was an error.
The induction is on the first run; at each step only one way to go on fits. -/
theorem Run.unique (h₁ : Run t depth m moments₁ node₁ m₁)
    (h₂ : Run t depth m moments₂ node₂ m₂) : moments₁ = moments₂ ∧ node₁ = node₂ ∧ m₁ = m₂ := by
  induction h₁ generalizing moments₂ node₂ m₂ with
  | rule _ ih =>
    cases h₂
    next hbody =>
      obtain ⟨rfl, rfl, rfl⟩ := ih hbody
      exact ⟨rfl, rfl, rfl⟩
  | regexp _ ih =>
    cases h₂
    next hchain => exact ih hchain
  | chain _ _ ihfirst ihothers | concatenation _ _ ihfirst ihothers
  | repetition _ _ ihfirst ihothers | pattern _ _ ihfirst ihothers =>
    cases h₂
    next hfirst hothers =>
      obtain ⟨rfl, rfl, rfl⟩ := ihfirst hfirst
      obtain ⟨rfl, rfl, rfl⟩ := ihothers hothers
      exact ⟨rfl, rfl, rfl⟩
  | operands_next hdone hnext _ _ ihright ihothers
  | factors_next hdone hnext _ _ ihright ihothers =>
    cases h₂
    -- a loop that goes on does not end here
    next hright hothers =>
      obtain ⟨rfl, rfl, rfl⟩ := ihright hright
      obtain ⟨rfl, rfl, rfl⟩ := ihothers hothers
      exact ⟨rfl, rfl, rfl⟩
    next hend => exact absurd ⟨hdone, hnext⟩ hend
  | stars_next hdone hnext _ ihothers =>
    cases h₂
    next hothers =>
      obtain ⟨rfl, rfl, rfl⟩ := ihothers hothers
      exact ⟨rfl, rfl, rfl⟩
    next hend => exact absurd ⟨hdone, hnext⟩ hend
  | operands_end hend | factors_end hend | stars_end hend =>
    cases h₂
    next => exact absurd ⟨by assumption, by assumption⟩ hend
    next => exact ⟨rfl, rfl, rfl⟩
  | atom_group _ htoken hdepth hsum _ _ ihinside ihclose =>
    cases h₂ with
    | atom_group _ _ _ hsum' hinside hclose =>
      obtain rfl := Except.ok.inj (hsum.symm.trans hsum')
      obtain ⟨rfl, rfl, rfl⟩ := ihinside hinside
      obtain ⟨rfl, rfl, rfl⟩ := ihclose hclose
      exact ⟨rfl, rfl, rfl⟩
    | atom_tooDeep _ _ hdeep => exact absurd hdepth (Nat.not_lt_of_le hdeep)
    | _ => simp_all
  | atom_tooDeep _ htoken hdeep =>
    cases h₂ with
    | atom_group _ _ hdepth => exact absurd hdepth (Nat.not_lt_of_le hdeep)
    | _ => simp_all
  | _ => cases h₂ <;> simp_all

-- ---------------------------------------------------------------------------
-- Where rules stop
-- ---------------------------------------------------------------------------

/-- No rule changes the options, by induction on the run. So the dialect that a rule asks
for is the one that the parser was made with. -/
theorem Run.options_eq (h : Run t depth m moments node m') : m'.options = m.options := by
  induction h with
  | rule _ ih | regexp _ ih | stars_next _ _ _ ih => exact ih
  | chain _ _ ihfirst ihothers | concatenation _ _ ihfirst ihothers
  | repetition _ _ ihfirst ihothers | pattern _ _ ihfirst ihothers
  | operands_next _ _ _ _ ihfirst ihothers | factors_next _ _ _ _ ihfirst ihothers
  | atom_group _ _ _ _ _ _ ihfirst ihothers => exact ihothers.trans ihfirst
  | _ => rfl

end Machine

namespace Task

/-- What the operand before a loop has left. The other tasks may start at any token. -/
def Starts (m : Machine) : Task → Prop
  | factors _ => Nonterminal.repetition.Stopped m
  | operands op _ => op.operand.Stopped m
  | _ => True

/-- Where a task stops: a loop does where its rule does. -/
def Stops (m : Machine) : Task → Prop
  | rule n | body n => n.Stopped m
  | stars _ => Nonterminal.repetition.Stopped m
  | factors _ => Nonterminal.concatenation.Stopped m
  | operands op _ => (Nonterminal.chain op).Stopped m
  | close _ | pattern | finish _ => True

end Task

namespace Machine

/-- In a dialect without interleavings no place holds their sign. -/
theorem tokenAt_ne_amp {d : Dialect} (h : d.hasInterleave = false) (chars : Array Char) (i : Nat) :
    tokenAt d chars i ≠ .amp := by
  unfold tokenAt
  cases chars[i]? with
  | none => nofun
  | some c => exact Rule.ofChar_ne_amp h c

/-- Every task stops where it may, or after an error. The induction is on the run; a loop
that ends does so at a token that is not its own, and the operand before has ruled out the
others. -/
theorem Run.stopped (h : Run t depth m moments node m') (hstart : t.Starts m) : t.Stops m' := by
  induction h with
  | rule _ ih => exact ih trivial
  | @regexp _ m _ _ m' hchain ih =>
    -- an alternation may stop at `&`, but `&` is a literal where there are no interleavings
    refine (ih trivial).imp_right fun hstops => Nonterminal.stopsAt_regexp hstops fun hd => ?_
    rw [m'.lookahead_eq, hchain.options_eq]
    exact tokenAt_ne_amp hd m'.chars m'.cursor
  | chain _ _ ihfirst ihothers | concatenation _ _ ihfirst ihothers
  | operands_next _ _ _ _ ihfirst ihothers | factors_next _ _ _ _ ihfirst ihothers =>
    exact ihothers (ihfirst trivial)
  | repetition _ _ _ ih | stars_next _ _ _ ih => exact ih trivial
  | operands_end hend => exact hstart.of_end hend Nonterminal.stopsAt_chain
  | factors_end hend => exact hstart.of_end hend Nonterminal.stopsAt_concatenation
  | @stars_end _ m _ hend =>
    have hatom : Nonterminal.atom.Stopped m := .inr trivial
    exact hatom.of_end hend fun _ h => h
  | atom_done | atom_literal | atom_tooDeep | atom_group | atom_omitted => exact .inr trivial
  | _ => trivial

-- ---------------------------------------------------------------------------
-- From moment to moment
-- ---------------------------------------------------------------------------

/-- Both are at the same place of the same pattern, under the same options. What they know
besides, such as their nodes, may differ. -/
structure SamePlace (m m' : Machine) : Prop where
  options_eq : m'.options = m.options
  chars_eq : m'.chars = m.chars
  cursor_eq : m'.cursor = m.cursor

theorem SamePlace.refl (m : Machine) : m.SamePlace m := ⟨rfl, rfl, rfl⟩

theorem SamePlace.push (h : m.SamePlace m') (node : Node) : m.SamePlace (m'.push node) :=
  ⟨h.options_eq, h.chars_eq, h.cursor_eq⟩

end Machine

/-- What a parser does at `y` may come right after what it does at `x`: the place is still
the same, and a group is entered only if its opening bracket was just taken. -/
structure Link (x y : Moment) : Prop where
  place : x.after.SamePlace y.parser
  opened : ∀ depth, y.move = .enter .regexp depth →
    x.move = .consume ∧ x.parser.lookahead = .opening

/-- The moments that come after `x`, up to where the parser has come to. Two that follow
each other are linked, and so are the last one and the end. -/
inductive Path : Moment → List Moment → Machine → Prop where
  | nil {x : Moment} {m : Machine} (hplace : x.after.SamePlace m) : Path x [] m
  | cons {x y : Moment} {rest : List Moment} {m : Machine} (hlink : Link x y)
      (hrest : Path y rest m) : Path x (y :: rest) m

/-- The second part starts where the first one has come to, whatever that did last. -/
theorem Path.append {first others : List Moment} (hfirst : Path x first m₁)
    (hothers : ∀ y : Moment, y.after.SamePlace m₁ → Path y others m₂) :
    Path x (first ++ others) m₂ := by
  induction hfirst with
  | nil hplace => exact hothers _ hplace
  | cons hlink _ ih => exact .cons hlink (ih hothers)

/-- A move that enters no group comes wherever the parser is. -/
theorem Path.move {move : Move} (hplace : x.after.SamePlace m)
    (hmove : ∀ depth, move ≠ .enter .regexp depth)
    (hrest : Path ⟨move, m⟩ moments m') : Path x (⟨move, m⟩ :: moments) m' :=
  .cons { place := hplace, opened := fun depth h => absurd h (hmove depth) } hrest

/-- A rule is left where its body has come to. -/
theorem Path.leave (h : Path x moments m') (n : Nonterminal) (depth : Nat) :
    Path x (moments ++ [⟨.leave n depth, m'⟩]) m' :=
  h.append fun _ hy => .move hy nofun (.nil (.refl m'))

namespace Machine

/-- A run goes on from the place where it starts. Only the task of a whole expression has
to be told what comes before it: that its bracket was just taken. -/
theorem Run.path (h : Run t depth m moments node m') (hpattern : t ≠ .pattern)
    (hplace : x.after.SamePlace m)
    (hgroup : t = .rule .regexp → x.move = .consume ∧ x.parser.lookahead = .opening) :
    Path x moments m' := by
  induction h generalizing x with
  | @rule n depth m _ _ m' _ ih =>
    have hlink : Link x ⟨.enter n depth, m⟩ := {
      place := hplace
      opened := by
        intro depth' h
        cases h
        exact hgroup rfl }
    have hbody := ih (x := ⟨.enter n depth, m⟩) nofun (.refl m) nofun
    exact Path.leave (.cons hlink hbody) n depth
  | regexp _ ih => exact ih nofun hplace nofun
  | @chain op _ _ _ _ _ _ _ _ _ _ ihfirst ihothers =>
    refine (ihfirst nofun hplace ?_).append fun y hy => ihothers nofun hy nofun
    intro h
    exact absurd (Task.rule.inj h) op.operand_ne_regexp
  | concatenation _ _ ihfirst ihothers | repetition _ _ ihfirst ihothers =>
    exact (ihfirst nofun hplace nofun).append fun y hy => ihothers nofun hy nofun
  | @operands_next op _ m _ _ _ _ _ _ _ _ _ _ _ ihright ihothers =>
    refine .append (.move hplace nofun (ihright (x := ⟨.consume, m⟩) nofun (.refl _) ?_))
      fun y hy => ihothers nofun (hy.push _) nofun
    intro h
    exact absurd (Task.rule.inj h) op.operand_ne_regexp
  | factors_next _ _ _ _ ihright ihothers =>
    exact (ihright nofun hplace nofun).append fun y hy => ihothers nofun (hy.push _) nofun
  | @stars_next _ m _ _ _ _ _ _ _ ih =>
    exact .move hplace nofun (ih (x := ⟨.consume, m⟩) nofun ⟨rfl, rfl, rfl⟩ nofun)
  | operands_end | factors_end | stars_end | close_done | finish_done | finish_end =>
    exact .nil hplace
  | atom_done | atom_omitted => exact .nil (hplace.push .epsilon)
  | atom_literal | atom_tooDeep | close_closing | close_unexpected | finish_closing
  | finish_unexpected => exact .move hplace nofun (.nil ⟨rfl, rfl, rfl⟩)
  | @atom_group _ _ m _ _ _ _ _ _ _ htoken _ _ _ _ ihinside ihclose =>
    -- the only place where a whole expression is called: its bracket was just taken
    have hinside := ihinside (x := ⟨.consume, m⟩) nofun (.refl _) fun _ => ⟨rfl, htoken⟩
    exact .append (.move hplace nofun hinside) fun y hy => ihclose nofun hy nofun
  | pattern => exact absurd rfl hpattern

end Machine

/-- Any two moments of a run that follow each other are linked: nothing happens between
them but one step of the parser. -/
theorem Path.link (h : Path x moments m') {before after : List Moment} {y z : Moment}
    (heq : x :: moments = before ++ y :: z :: after) : Link y z := by
  induction h generalizing before with
  | nil => cases before <;> simp at heq
  | cons hlink _ ih =>
    cases before with
    | nil =>
      simp only [List.nil_append, List.cons.injEq] at heq
      obtain ⟨rfl, rfl, -⟩ := heq
      exact hlink
    | cons => exact ih (List.cons.inj heq).2

-- ---------------------------------------------------------------------------
-- What holds at every moment
-- ---------------------------------------------------------------------------

/-- Rules are entered no deeper than allowed and left where they may stop, there is something to
take, and nothing is done after an error but to return. -/
def Moment.Sound (x : Moment) : Prop :=
  match x.move with
  | .enter _ depth => depth ≤ x.parser.options.maxDepth
  | .consume => x.parser.done = false ∧ x.parser.lookahead ≠ .finish
  | .fail _ => x.parser.done = false
  | .leave n _ => n.Stopped x.parser

namespace Machine

/-- What a loop or a call goes on with is a parser under the same options, so the depth is
as good there as it was before. The depth grows only where a group is entered, which looks
at the limit. -/
theorem Run.sound (h : Run t depth m moments node m') (hdepth : depth ≤ m.options.maxDepth) :
    ∀ x ∈ moments, x.Sound := by
  induction h with
  | @rule n depth m moments _ m' hbody ih =>
    have hleave : Moment.Sound ⟨.leave n depth, m'⟩ := hbody.stopped trivial
    intro x hx
    simp only [List.cons_append, List.mem_cons, List.mem_append, List.not_mem_nil, or_false] at hx
    rcases hx with rfl | hx | rfl
    · exact hdepth
    · exact ih hdepth x hx
    · exact hleave
  | regexp _ ih => exact ih hdepth
  | chain hfirst _ ihfirst ihothers | concatenation hfirst _ ihfirst ihothers
  | repetition hfirst _ ihfirst ihothers | factors_next _ _ hfirst _ ihfirst ihothers =>
    exact List.forall_mem_append.mpr ⟨ihfirst hdepth, ihothers (hfirst.options_eq ▸ hdepth)⟩
  | @operands_next op _ _ _ _ _ _ _ _ _ hdone htoken hright _ ihright ihothers =>
    refine List.forall_mem_append.mpr ⟨List.forall_mem_cons.mpr ⟨⟨hdone, ?_⟩, ihright hdepth⟩,
      ihothers (hright.options_eq ▸ hdepth)⟩
    -- the sign that is taken is not the end
    exact htoken ▸ op.token_ne_finish
  | stars_next hdone htoken _ ih =>
    exact List.forall_mem_cons.mpr ⟨⟨hdone, by simp [htoken]⟩, ih hdepth⟩
  | atom_group hdone htoken hlt hsum hinside _ ihinside ihclose =>
    obtain ⟨rfl, -⟩ := addWords_eq_ok_iff.mp hsum
    exact List.forall_mem_append.mpr ⟨List.forall_mem_cons.mpr
      ⟨⟨hdone, by simp [htoken]⟩, ihinside hlt⟩, ihclose (hinside.options_eq ▸ hdepth)⟩
  | atom_literal hdone htoken | close_closing hdone htoken =>
    exact List.forall_mem_singleton.mpr ⟨hdone, by simp [htoken]⟩
  | atom_tooDeep hdone | close_unexpected hdone | finish_closing hdone | finish_unexpected hdone =>
    exact List.forall_mem_singleton.mpr hdone
  | pattern hbody _ ihbody ihfinish =>
    exact List.forall_mem_append.mpr
      ⟨ihbody (Nat.zero_le _), ihfinish (hbody.options_eq ▸ hdepth)⟩
  | operands_end | factors_end | stars_end | atom_done | atom_omitted | close_done | finish_done
  | finish_end => exact List.forall_mem_nil _

/-- The pattern is the same, and the place no earlier. It stays in the pattern if it was
there. -/
structure Onward (m m' : Machine) : Prop where
  options_eq : m'.options = m.options
  chars_eq : m'.chars = m.chars
  cursor_le : m.cursor ≤ m'.cursor
  inside : m.cursor ≤ m.chars.size → m'.cursor ≤ m'.chars.size

theorem Onward.trans (h₁ : m.Onward m₁) (h₂ : m₁.Onward m₂) : m.Onward m₂ where
  options_eq := h₂.options_eq.trans h₁.options_eq
  chars_eq := h₂.chars_eq.trans h₁.chars_eq
  cursor_le := Nat.le_trans h₁.cursor_le h₂.cursor_le
  inside hle := h₂.inside (h₁.inside hle)

theorem SamePlace.onward (h : m.SamePlace m') : m.Onward m' where
  options_eq := h.options_eq
  chars_eq := h.chars_eq
  cursor_le := Nat.le_of_eq h.cursor_eq.symm
  inside hle := by rwa [h.cursor_eq, h.chars_eq]

/-- A step of a run. Only one that takes a character moves the place, and there is one to
take. -/
theorem onward_after (h : x.Sound) : x.parser.Onward x.after := by
  obtain ⟨move, m⟩ := x
  cases move with
  | consume =>
    have hlt : m.cursor < m.chars.size := cursor_lt_size h.2
    exact ⟨rfl, rfl, Nat.le_succ m.cursor, fun _ => hlt⟩
  | enter | leave => exact (SamePlace.refl m).onward
  | fail kind => exact SamePlace.onward ⟨rfl, rfl, rfl⟩

/-- The parser before a run, at every moment of it, and after it. -/
def seen (m : Machine) (moments : List Moment) (m' : Machine) : List Machine :=
  m :: (moments.map (·.parser) ++ [m'])

/-- A whole run: of any two parsers on the way the later one is further on. One step says
so of neighbours, and the rest is transitivity. -/
theorem pairwise_onward (h : Path x moments m') (hx : x.Sound) (hall : ∀ y ∈ moments, y.Sound) :
    (seen x.parser moments m').Pairwise Onward := by
  induction h with
  | nil hplace => exact List.pairwise_pair.mpr ((onward_after hx).trans hplace.onward)
  | @cons x y rest m' hlink _ ih =>
    have hstep : x.parser.Onward y.parser := (onward_after hx).trans hlink.place.onward
    obtain ⟨hy, hrest⟩ := List.forall_mem_cons.mp hall
    have hpairwise := ih hy hrest
    refine List.pairwise_cons.mpr ⟨fun p hp => ?_, hpairwise⟩
    obtain rfl | hp := List.mem_cons.mp hp
    · exact hstep
    · exact hstep.trans (List.rel_of_pairwise_cons hpairwise hp)

/-- What a run from `m` to `m'` shows of the parser on the way: at all moments, and not
only at its two ends. The parsers that are seen are those at the moments, with `m` before
them and `m'` behind. -/
structure KeepsPlace (m : Machine) (moments : List Moment) (m' : Machine) : Prop where
  /-- The lookahead is the token at the place. -/
  lookahead_eq : ∀ p ∈ seen m moments m', p.lookahead = tokenAt m.options.dialect m.chars p.cursor
  /-- The place is in the pattern or at its end. -/
  cursor_le : ∀ p ∈ seen m moments m', p.cursor ≤ m.chars.size
  /-- It never moves back. -/
  forward : (seen m moments m').Pairwise fun p q => p.cursor ≤ q.cursor
  /-- No rule is entered deeper than groups may be nested. -/
  depth_le : ∀ n depth p, ⟨.enter n depth, p⟩ ∈ moments → depth ≤ m.options.maxDepth
  /-- A group is entered right behind its opening bracket. No moment comes before the one that the
  run starts with. -/
  opened : ∀ before x depth p after, moments = before ++ x :: ⟨.enter .regexp depth, p⟩ :: after →
    x.move = .consume ∧ x.parser.lookahead = .opening ∧ p.cursor = x.parser.cursor + 1
  /-- A rule that is left has stopped where it may. -/
  stopped : ∀ n depth p, ⟨.leave n depth, p⟩ ∈ moments → n.Stopped p

/-- What is known of every moment and of every two that follow each other is known of the
run. -/
theorem keepsPlace_of_path (h : Path x moments m') (hall : ∀ y ∈ x :: moments, y.Sound)
    (hle : x.parser.cursor ≤ x.parser.chars.size) : x.parser.KeepsPlace (x :: moments) m' := by
  obtain ⟨hx, hmoments⟩ := List.forall_mem_cons.mp hall
  have hpairwise : (seen x.parser (x :: moments) m').Pairwise Onward := by
    have hrest := pairwise_onward h hx hmoments
    refine List.pairwise_cons.mpr ⟨fun p hp => ?_, hrest⟩
    obtain rfl | hp := List.mem_cons.mp hp
    · exact (SamePlace.refl _).onward
    · exact List.rel_of_pairwise_cons hrest hp
  -- seen from its first moment, the whole run goes onward
  have honward : ∀ p ∈ seen x.parser (x :: moments) m', x.parser.Onward p :=
    List.forall_mem_cons.mpr
      ⟨(SamePlace.refl _).onward, fun p hp => List.rel_of_pairwise_cons hpairwise hp⟩
  exact {
    lookahead_eq := by
      intro p hp
      rw [p.lookahead_eq, (honward p hp).options_eq, (honward p hp).chars_eq]
    cursor_le := fun p hp => (honward p hp).chars_eq ▸ (honward p hp).inside hle
    forward := hpairwise.imp fun h => h.cursor_le
    depth_le := by
      intro n depth p hp
      have hmem : p ∈ seen x.parser (x :: moments) m' :=
        List.mem_cons_of_mem _ (List.mem_append_left _ (List.mem_map_of_mem hp))
      exact (honward p hmem).options_eq ▸ hall _ hp
    opened := by
      intro before y depth p after heq
      have hlink := h.link heq
      obtain ⟨hmove, htoken⟩ := hlink.opened depth rfl
      refine ⟨hmove, htoken, ?_⟩
      rw [hlink.place.cursor_eq, Moment.after, hmove]
      rfl
    stopped := fun n depth p hp => hall _ hp }

/-- The first moment of a rule is that it is entered. -/
theorem Run.exists_path (h : Run (.rule n) depth m moments node m') :
    ∃ rest, moments = ⟨.enter n depth, m⟩ :: rest ∧ Path ⟨.enter n depth, m⟩ rest m' := by
  cases h with
  | rule hbody =>
    have hpath := hbody.path (x := ⟨.enter n depth, m⟩) nofun (.refl m) nofun
    exact ⟨_, rfl, hpath.leave n depth⟩

/-- The first moment of a parse is that the whole expression is entered. -/
theorem Run.exists_path_of_pattern (h : Run .pattern depth m moments node m') :
    ∃ rest, moments = ⟨.enter .regexp 0, m⟩ :: rest ∧ Path ⟨.enter .regexp 0, m⟩ rest m' := by
  cases h with
  | pattern hbody hfinish =>
    obtain ⟨rest, rfl, hpath⟩ := hbody.exists_path
    exact ⟨_, rfl, hpath.append fun y hy => hfinish.path nofun hy nofun⟩

/-- A run of a rule keeps its place, if it starts in the pattern and no deeper than
allowed. -/
theorem Run.keepsPlace (h : Run (.rule n) depth m moments node m')
    (hdepth : depth ≤ m.options.maxDepth) (hle : m.cursor ≤ m.chars.size) :
    m.KeepsPlace moments m' := by
  have hsound := h.sound hdepth
  obtain ⟨rest, rfl, hpath⟩ := h.exists_path
  exact keepsPlace_of_path hpath hsound hle

/-- And so does a whole parse, whose last task enters no rule. -/
theorem Run.keepsPlace_of_pattern (h : Run .pattern depth m moments node m')
    (hdepth : depth ≤ m.options.maxDepth) (hle : m.cursor ≤ m.chars.size) :
    m.KeepsPlace moments m' := by
  have hsound := h.sound hdepth
  obtain ⟨rest, rfl, hpath⟩ := h.exists_path_of_pattern
  exact keepsPlace_of_path hpath hsound hle

end Machine

end Parser

end PatternAutomata
