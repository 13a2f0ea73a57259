import PatternAutomata.Event
import PatternAutomata.ParseTree
import PatternAutomata.Parser.Rules

/-!
# Pattern automata — reading patterns

`read` takes a pattern through the grammar, and `compile` makes a parse tree of
it. Reading stops at the first character that does not fit, so there is at most
one error, and nothing after it is looked at: `literals` are the literals met
until then.

A `Parser` reads one pattern after another under the same options and can be
asked about the last one.
-/

namespace PatternAutomata

/-- How deep groups may be nested, unless said otherwise. -/
def defaultMaxDepth : Nat := 256

/-- Everything that patterns are read under. -/
structure Options where
  dialect : Dialect := .plain
  maxDepth : Nat := defaultMaxDepth
  deriving DecidableEq, Repr

/-- Why no parse tree came out. -/
inductive CompileError where
  | rejected (e : SyntaxError)
  | fault (f : Fault)
  deriving DecidableEq, Repr

instance : MonadLift (Except Fault) (Except CompileError) where
  monadLift r := r.mapError .fault

/-- What a pattern's characters stand for, up to its end. -/
def readAll (o : Options) (pattern : List Char) : Except Halt (Expr Char × Cursor) := do
  let r ← Rule.regexp o.dialect o.maxDepth o.maxDepth { rest := pattern }
  match r.stop.token o.dialect with
  | .finish => return (r.expr, r.stop)
  | .closing => throw (.error .unmatchedClose r.stop)
  | _ => throw (.unexpected o.dialect r.stop)

/-- What reading a pattern came to: the literals that were met, and what they are part of. -/
structure Outcome where
  literals : List Char
  result : Except Halt (Expr Char)

/-- Reads a pattern by the grammar, and keeps the literals that were met, also if it goes
wrong. -/
def read (o : Options) (pattern : String) : Outcome :=
  match readAll o pattern.toList with
  | .ok (e, s) => { literals := s.literals.reverse, result := .ok e }
  | .error halt => { literals := halt.cursor.literals.reverse, result := .error halt }

namespace Halt

/-- The error that is reported. Reading stops at the first one, so it is the only one. -/
def compileError (h : Halt) : CompileError :=
  match h.cause with
  | .syntaxError kind => .rejected { kind := kind, offset := h.cursor.offset, errors := 1 }
  | .leftover token => .fault (.leftover token)

end Halt

namespace Outcome

/-- The checked parse tree of a pattern that was read. -/
def tree (outcome : Outcome) (o : Options) (pattern : String) : Except CompileError ParseTree :=
  match outcome.result with
  | .error halt => .error halt.compileError
  | .ok e => do
    let t := ParseTree.ofExpr pattern o.dialect e
    t.check
    return t

/-- The log of reading a pattern: its literals, and the error if there is one. -/
def events (outcome : Outcome) (pattern : String) : List Event :=
  outcome.literals.zipIdx.map (fun (c, i) => .literalRead (i + 1) c) ++
    match outcome.result with
    | .ok _ => []
    | .error halt =>
      match halt.compileError with
      | .rejected e => [.readingFailed pattern e]
      | .fault _ => []

end Outcome

def compile (o : Options) (pattern : String) : Except CompileError ParseTree :=
  (read o pattern).tree o pattern

/-- A reader of patterns with what it knows about the last one. -/
structure Parser where
  options : Options
  /-- The distinct literals met in the last pattern, in the order of their first occurrence. -/
  symbols : List Char := []
  error? : Option SyntaxError := none
  deriving DecidableEq, Repr

namespace Parser

/-- Forgets the last pattern. -/
def reset (p : Parser) : Parser := { options := p.options }

/-- Reads a pattern; nothing of the one before it is kept. -/
def parse (p : Parser) (pattern : String) : Except CompileError ParseTree × Parser :=
  let outcome := read p.options pattern
  let result := outcome.tree p.options pattern
  let error? := match result with
    | .error (.rejected e) => some e
    | _ => none
  (result, { p with symbols := outcome.literals.eraseDups, error? := error? })

/-- How many errors the last pattern had. -/
def errors (p : Parser) : Nat := p.error?.elim 0 (·.errors)

/-- Did reading stop at an error? -/
def isDone (p : Parser) : Bool := p.error?.isSome

end Parser

end PatternAutomata
