import Mathlib.Data.Set.List
import PatternAutomata.Proofs.Compiled
import PatternAutomata.Proofs.Parser.RoundTrip
import PatternAutomata.TestFile

/-!
# Pattern automata — reports of test files

Once the pattern of a test file compiles, its two automata accept the same words,
those of the pattern's language. So the report is decided by the language: a test
is reported as passed or failed, with one verdict given twice, and its number is
its place among the tests. A line that is no test ends the report there, with an
error that says nothing of the tests that failed before it.

Whether the first line is a header is decided by its first word, before the line
is read as a pattern. No blank stands in a pattern, so a header that is known is
no pattern. But the word `dialect` alone, which is a pattern, is taken for a
header that is not known; every other pattern is taken for what it is.

## Results

* `runTests_append`  — tests are reported one by one, and the failed ones are counted.
* `exists_reported`  — a pattern that compiles is tested with the words of its tree.
* `check_header`     — the report of a file with a header.
* `lines_written`    — a file that is written line by line is read back so.
* `header?_pattern`  — a pattern is no header, unless it is the word `dialect`.
* `check_written`    — the report of a file without a header.
-/

namespace PatternAutomata

-- ---------------------------------------------------------------------------
-- Characters of patterns
-- ---------------------------------------------------------------------------

/-- Is `c` a printable ASCII character, and no space? -/
def isGraphic (c : Char) : Bool := decide (0x20 < c.toNat ∧ c.toNat < 0x7f)

theorem isBlank_eq_false_of_isGraphic {c : Char} (h : isGraphic c = true) :
    Text.isBlank c = false := by
  obtain ⟨hlow, hhigh⟩ := of_decide_eq_true h
  exact Text.isBlank_eq_false hlow (by omega)

/-- Every literal is graphic: it is a letter, a digit or one of the signs in the list. The
ranges of letters and digits are compared by their numbers. -/
theorem Dialect.isGraphic_of_isLiteral {d : Dialect} {c : Char} (h : d.isLiteral c = true) :
    isGraphic c = true := by
  have hpunctuation : Dialect.punctuation.toList.all isGraphic = true := by decide
  unfold Dialect.isLiteral at h
  split at h
  case isTrue hc => exact hc ▸ by decide
  case isFalse =>
    rcases (Bool.or_eq_true _ _).mp h with halphanum | hsign
    · -- upper case, lower case, digits
      change ((decide (65 ≤ c.val ∧ c.val ≤ 90) ||
        (decide (97 ≤ c.val) && decide (c.val ≤ 122))) ||
        (decide (48 ≤ c.val) && decide (c.val ≤ 57))) = true at halphanum
      simp only [Bool.or_eq_true, Bool.and_eq_true, decide_eq_true_eq, UInt32.le_iff_toNat_le]
        at halphanum
      simp only [isGraphic, Char.toNat]
      grind
    · exact List.all_eq_true.mp hpunctuation c (List.contains_iff_mem.mp hsign)

theorem Token.isGraphic_of_ofChar {d : Dialect} {c : Char} (h : Token.ofChar d c ≠ .invalid c) :
    isGraphic c = true := by
  have hknown : c ∈ "()|*&".toList ∨ d.isLiteral c = true := by grind [Token.ofChar]
  have hsigns : "()|*&".toList.all isGraphic = true := by decide
  exact hknown.elim (List.all_eq_true.mp hsigns c) Dialect.isGraphic_of_isLiteral

/-- A scan without an error has met no invalid character. -/
theorem ofChar_ne_invalid {o : Options} {opened offset : Nat} {text : List Char}
    (h : firstErrorFrom o opened offset text = none) :
    ∀ c ∈ text, Token.ofChar o.dialect c ≠ .invalid c := by
  fun_induction firstErrorFrom o opened offset text <;> grind [Token.ofChar, Dialect.isSign]

/-- No blank stands in a pattern that compiles, so neither does a line feed. All literals
and operators can be seen, and a blank cannot. -/
theorem isBlank_eq_false_of_compile {o : Options} {pattern : String} {t : ParseTree}
    (h : compile o pattern = .ok t) : ∀ c ∈ pattern.toList, Text.isBlank c = false := by
  have hscan : firstError? o pattern = none := by
    cases hfirst : firstError? o pattern with
    | none => rfl
    | some e => exact absurd (h.symm.trans (compile_eq_error hfirst)) nofun
  intro c hc
  exact isBlank_eq_false_of_isGraphic (Token.isGraphic_of_ofChar (ofChar_ne_invalid hscan c hc))

-- ---------------------------------------------------------------------------
-- Transcripts
-- ---------------------------------------------------------------------------

namespace Transcript

theorem after_empty (tr : Transcript) : tr.after "" = tr := by
  rw [after, String.empty_append]

theorem after_after (text more : String) (tr : Transcript) :
    (tr.after more).after text = tr.after (text ++ more) := by
  rw [after, after, after, String.append_assoc]

end Transcript

/-- The dialect's name in headers. -/
def Dialect.headerName : Dialect → String
  | plain => "plain"
  | parallel => "parallel"

namespace TestFile

-- ---------------------------------------------------------------------------
-- Lines
-- ---------------------------------------------------------------------------

/-- The sign that a test's line starts with. -/
def Test.sign (x : Test) : Char := if x.expected then '+' else '-'

theorem Test.isBlank_sign (x : Test) : Text.isBlank x.sign = false := by
  unfold sign
  cases x.expected <;> rfl

/-- The line of a test. -/
def Test.line (x : Test) : List Char := x.sign :: x.word.toList

/-- Does a line start as a test does? -/
def Signed (line : List Char) : Prop := line.head? = some '+' ∨ line.head? = some '-'

theorem Test.ofLine?_line (x : Test) : Test.ofLine? x.line = some x := by
  obtain ⟨expected, word⟩ := x
  cases expected <;> simp [line, sign, ofLine?]

/-- A line that starts in another way is no test. -/
theorem Test.ofLine?_eq_none {line : List Char} (h : ¬ Signed line) : Test.ofLine? line = none := by
  unfold ofLine?
  split
  · exact absurd (.inl rfl) h
  · exact absurd (.inr rfl) h
  · rfl

/-- Lines that start as tests do are the lines of tests. So a run over them is one over
tests. -/
theorem exists_tests {lines : List (List Char)} (h : ∀ line ∈ lines, Signed line) :
    ∃ tests : List Test, lines = tests.map Test.line := by
  have hlines : ∀ line ∈ lines, line ∈ Set.range Test.line := by
    intro line hmem
    rcases h line hmem with hsign | hsign <;>
      obtain ⟨word, rfl⟩ := List.head?_eq_some_iff.mp hsign
    · exact ⟨{ expected := true, word := String.ofList word }, by simp [Test.line, Test.sign]⟩
    · exact ⟨{ expected := false, word := String.ofList word }, by simp [Test.line, Test.sign]⟩
  obtain ⟨tests, rfl⟩ : lines ∈ Set.range (List.map Test.line) :=
    Set.range_list_map Test.line ▸ hlines
  exact ⟨tests, rfl⟩

-- ---------------------------------------------------------------------------
-- Reports
-- ---------------------------------------------------------------------------

section Reports

variable (accepted : String → Bool)

/-- Is the test failed, where these words are accepted? -/
def Test.fails (x : Test) : Bool := accepted x.word != x.expected

/-- What is reported of the test with this number. -/
def Test.report (number : Nat) (x : Test) : String :=
  if x.fails accepted then
    s!"    #{number} failed.\n" ++
      s!"    expected {Text.quoted x.word} to be {verdictText x.expected}, " ++
      s!"thompson: {verdictText (accepted x.word)}, direct: {verdictText (accepted x.word)}\n"
  else s!"    #{number} passed.\n"

/-- What is reported of tests that are numbered from `number` on. -/
def reports (number : Nat) (tests : List Test) : String :=
  String.join ((tests.zipIdx number).map fun (x, i) => x.report accepted i)

/-- How many tests are failed. -/
def failures (tests : List Test) : Nat := tests.countP (·.fails accepted)

/-- How a file of tests ends: well, or with the number of those that failed. -/
def ending (tests : List Test) : Except String Unit :=
  if failures accepted tests = 0 then .ok ()
  else .error s!"{failures accepted tests} test(s) failed."

/-- How a file ends at a line that is no test, whatever failed before. -/
def endingAt (line : List Char) : Except String Unit :=
  .error s!"Expected \"+word\" or \"-word\", found \"{String.ofList line}\"."

/-- A transcript that reports these tests under a heading, and ends with this result. It
is what a file prints, and its message if it fails. -/
structure Reported (o : Options) (pattern : String) (tests : List Test)
    (result : Except String Unit) (tr : Transcript) : Prop where
  output_eq : tr.output = s!"Testing {pattern} ({o.dialect.name})\n" ++ reports accepted 1 tests
  result_eq : tr.result.mapError CommandError.message = result

/-- One verdict, given by both automata. -/
def Verdicts.both (verdict : Bool) : Verdicts := { thompson := verdict, direct := verdict }

/-- Both automata accept just these words. In this form tests need to know nothing about
patterns. -/
structure Accept (n : Nfa) (d : Dfa) : Prop where
  thompson : ∀ word, n.accepts word = .ok (accepted word)
  direct : ∀ word, d.accepts word = .ok (accepted word)

variable {accepted} {n : Nfa} {d : Dfa}

/-- The message of the end of a run without a line that is no test. -/
theorem result_end (tests : List Test) :
    (if failures accepted tests = 0 then .ok ()
      else .error (CommandError.testsFailed (failures accepted tests)) :
        Except CommandError Unit).mapError CommandError.message = ending accepted tests := by
  unfold ending
  split <;> rfl

/-- A test is passed if its verdict is the one expected; both automata give it. -/
theorem meet_both (x : Test) :
    (Verdicts.both (accepted x.word)).meet x.expected = !x.fails accepted := by
  unfold Verdicts.both Verdicts.meet Test.fails
  rw [Bool.and_self, bne, Bool.not_not]

theorem testText_both (number : Nat) (x : Test) :
    testText number x (Verdicts.both (accepted x.word)) = x.report accepted number := by
  rw [testText, meet_both, Test.report]
  cases x.fails accepted <;> rfl

theorem ofWord_eq_both (h : Accept accepted n d) (word : String) :
    Verdicts.ofWord n d word = .ok (Verdicts.both (accepted word)) := by
  rw [Verdicts.ofWord, h.thompson, h.direct]
  rfl

theorem reports_cons (number : Nat) (x : Test) (tests : List Test) :
    reports accepted number (x :: tests) =
      x.report accepted number ++ reports accepted (number + 1) tests := by
  rw [reports, List.zipIdx_cons, List.map_cons, String.join_cons, reports]

theorem failures_cons (x : Test) (tests : List Test) :
    failures accepted (x :: tests) =
      (if x.fails accepted then 1 else 0) + failures accepted tests := by
  rw [failures, List.countP_cons, Nat.add_comm, failures]

/-- One test is reported, and counted if it fails; the other tests are run whether it does
or not. -/
theorem runTests_line (h : Accept accepted n d) (number failed : Nat) (x : Test)
    (rest : List (List Char)) :
    runTests n d number failed (x.line :: rest) =
      (runTests n d (number + 1) (failed + if x.fails accepted then 1 else 0) rest).after
        (x.report accepted number) := by
  rw [runTests, Test.ofLine?_line]
  dsimp only
  rw [ofWord_eq_both h]
  dsimp only
  rw [testText_both, meet_both]
  cases x.fails accepted <;> rfl

/-- The tests are reported one by one, and those that fail are counted. The numbers go on
behind the tests, and so does the count, with whatever lines there are after them. -/
theorem runTests_append (h : Accept accepted n d) (number failed : Nat) (tests : List Test)
    (rest : List (List Char)) :
    runTests n d number failed (tests.map Test.line ++ rest) =
      (runTests n d (number + tests.length) (failed + failures accepted tests) rest).after
        (reports accepted number tests) := by
  induction tests generalizing number failed with
  | nil => exact (Transcript.after_empty _).symm
  | cons x tests ih =>
    rw [List.map_cons, List.cons_append, runTests_line h, ih, Transcript.after_after, reports_cons,
      failures_cons, List.length_cons, Nat.add_assoc, Nat.add_assoc, Nat.add_comm 1]

end Reports

-- ---------------------------------------------------------------------------
-- Patterns that compile
-- ---------------------------------------------------------------------------

/-- Are these the words of the tree? -/
def Decides (accepted : String → Bool) (t : ParseTree) : Prop :=
  ∀ word, accepted word = true ↔ t.Language word.toList

/-- A pattern that compiles is tested with automata that accept just the words of its
tree. As both accept the same ones, no report can show two different verdicts. -/
theorem exists_checkPattern {o : Options} {pattern : String} {t : ParseTree}
    (h : compile o pattern = .ok t) :
    ∃ n d accepted, Decides accepted t ∧ Accept accepted n d ∧ ∀ lines,
      checkPattern o pattern lines =
        (runTests n d 1 0 lines).after s!"Testing {pattern} ({o.dialect.name})\n" := by
  obtain ⟨n, _, d, hn, -, hd, hwords⟩ := constructions_agree h
  choose accepted hdirect hthompson _ hlanguage using hwords
  refine ⟨n, d, accepted, hlanguage, ⟨hthompson, hdirect⟩, fun lines => ?_⟩
  have hautomata : (do let n ← t.thompson; let d ← t.direct; return (n, d) :
      Except CommandError (Nfa × Dfa)) = .ok (n, d) := by
    rw [hn, hd]
    rfl
  rw [checkPattern, h]
  exact congrArg (Transcript.bind · _) hautomata

/-- The heading and the reports stand before what a run ends with, if nothing is printed
then. -/
theorem reported_of_end {accepted : String → Bool} {n : Nfa} {d : Dfa}
    (h : Accept accepted n d) (o : Options) (pattern : String) (tests : List Test)
    (rest : List (List Char)) {e : Except CommandError Unit} {result : Except String Unit}
    (hend : runTests n d (1 + tests.length) (failures accepted tests) rest = { result := e })
    (hresult : e.mapError CommandError.message = result) :
    Reported accepted o pattern tests result
      ((runTests n d 1 0 (tests.map Test.line ++ rest)).after
        s!"Testing {pattern} ({o.dialect.name})\n") := by
  rw [runTests_append h, Nat.zero_add, hend]
  exact ⟨by rw [Transcript.after_after, Transcript.after, String.append_empty], hresult⟩

/-- A pattern that compiles is tested with the words of its tree, up to the first line
that is no test. Behind that line nothing is looked at. -/
theorem exists_reported {o : Options} {pattern : String} {t : ParseTree}
    (h : compile o pattern = .ok t) :
    ∃ accepted, Decides accepted t ∧
      (∀ tests, Reported accepted o pattern tests (ending accepted tests)
        (checkPattern o pattern (tests.map Test.line))) ∧
      ∀ tests line after, ¬ Signed line →
        Reported accepted o pattern tests (endingAt line)
          (checkPattern o pattern (tests.map Test.line ++ line :: after)) := by
  obtain ⟨n, d, accepted, hdecides, haccept, hcheck⟩ := exists_checkPattern h
  refine ⟨accepted, hdecides, fun tests => ?_, fun tests line after hline => ?_⟩
  · have hreported := reported_of_end haccept o pattern tests [] rfl (result_end tests)
    rwa [List.append_nil, ← hcheck] at hreported
  · -- the line is refused, and the count of failures is dropped
    have hend : runTests n d (1 + tests.length) (failures accepted tests) (line :: after) =
        .fail (.noTest (String.ofList line)) := by rw [runTests, Test.ofLine?_eq_none hline]
    rw [hcheck]
    exact reported_of_end haccept o pattern tests (line :: after) hend rfl

-- ---------------------------------------------------------------------------
-- Files with a header
-- ---------------------------------------------------------------------------

theorem header?_eq_some {line : List Char} {d : Dialect}
    (h : Text.words line = ["dialect".toList, d.headerName.toList]) :
    header? line = .ok (some d) := by
  rw [header?, h]
  cases d <;> rfl

/-- A file with a header is one without it, under the dialect that the header names. -/
theorem check_eq_of_header {text : String} {header pattern : List Char} {rest : List (List Char)}
    {d : Dialect} (o : Options) (hlines : lines text = header :: pattern :: rest)
    (hheader : header? header = .ok (some d)) :
    check o text = checkPattern { o with dialect := d } (String.ofList pattern) rest := by
  rw [check, hlines, splitHeader, hheader]
  rfl

/-- What becomes of a file whose header asks for the dialect `d`, and whose other lines
are the pattern and `rest`, if `accepted` tells the words of the pattern. Either all other
lines are tests, or there is a first one that is none. -/
structure HeaderReport (accepted : String → Bool) (o : Options) (d : Dialect)
    (text pattern : String) (rest : List (List Char)) : Prop where
  dialect_ignored : ∀ d', check { o with dialect := d' } text = check o text
  all_tests : (∀ line ∈ rest, Signed line) → ∃ tests : List Test, rest = tests.map Test.line ∧
    Reported accepted { o with dialect := d } pattern tests (ending accepted tests) (check o text)
  first_other : ∀ before line after, rest = before ++ line :: after →
    (∀ l ∈ before, Signed l) → ¬ Signed line → ∃ tests : List Test, before = tests.map Test.line ∧
      Reported accepted { o with dialect := d } pattern tests (endingAt line) (check o text)

/-- **Files with a header**: the dialect is the one that the header names, and the tests
are reported one by one up to the first line that is none. Only the lines of the text
matter, so blanks around them and empty lines between them may be there or not. -/
theorem check_header (o : Options) {d : Dialect} {text pattern : String} {header : List Char}
    {rest : List (List Char)} {t : ParseTree}
    (hlines : lines text = header :: pattern.toList :: rest)
    (hheader : Text.words header = ["dialect".toList, d.headerName.toList])
    (hcompile : compile { o with dialect := d } pattern = .ok t) :
    ∃ accepted, Decides accepted t ∧ HeaderReport accepted o d text pattern rest := by
  obtain ⟨accepted, hdecides, htests, hother⟩ := exists_reported hcompile
  -- the dialect that was given is replaced, so it makes no difference
  have hcheck (o : Options) : check o text = checkPattern { o with dialect := d } pattern rest := by
    rw [check_eq_of_header o hlines (header?_eq_some hheader), String.ofList_toList]
  refine ⟨accepted, hdecides, fun d' => ?_, fun hsigned => ?_,
    fun before line after hrest hsigned hline => ?_⟩
  · rw [hcheck, hcheck]
  · obtain ⟨tests, rfl⟩ := exists_tests hsigned
    exact ⟨tests, rfl, hcheck o ▸ htests tests⟩
  · obtain ⟨tests, rfl⟩ := exists_tests hsigned
    subst hrest
    exact ⟨tests, rfl, hcheck o ▸ hother tests line after hline⟩

/-- A header that overrides the dialect, blank lines, a test that fails, and a line that is no
test. -/
theorem check_header_of_interleaving :
    let text := "\n dialect \t parallel\r\n\n  a&b \n+ba\n-ab\n?a\n+b"
    let header := "dialect \t parallel".toList
    let rest := ["+ba".toList, "-ab".toList, "?a".toList, "+b".toList]
    lines text = header :: "a&b".toList :: rest ∧
      Text.words header = ["dialect".toList, Dialect.parallel.headerName.toList] ∧
      ∃ t accepted, compile { dialect := .parallel } "a&b" = .ok t ∧ Decides accepted t ∧
        HeaderReport accepted {} .parallel text "a&b" rest := by
  intro text header rest
  have hlines : lines text = header :: "a&b".toList :: rest := by decide
  have hheader : Text.words header = ["dialect".toList, Dialect.parallel.headerName.toList] := by
    decide
  have hscan : firstError? { dialect := .parallel } "a&b" = none := by decide
  obtain ⟨body, h⟩ := exists_compile_eq_ok hscan
  obtain ⟨accepted, hdecides, hreport⟩ := check_header {} hlines hheader h
  exact ⟨hlines, hheader, _, accepted, h, hdecides, hreport⟩

-- ---------------------------------------------------------------------------
-- Files without a header
-- ---------------------------------------------------------------------------

/-- The text of a test file without a header, up to its last line feed. -/
def written (pattern : String) (tests : List Test) : String :=
  "\n".intercalate (pattern :: tests.map (String.ofList ·.line))

/-- A line that is read back as it stands: it is one line, it counts, and no blank is cut
off from it. -/
structure Stays (line : List Char) : Prop where
  no_newline : '\n' ∉ line
  filled : line ≠ []
  trimmed : Text.trim line = line

/-- Lines that stay are read back, and a line feed at the end makes no difference. Blank
lines are none of these. -/
theorem lines_intercalate {text : String} {ls : List (List Char)} {lineEnd : List Char}
    (htext : text.toList = ['\n'].intercalate ls ++ lineEnd) (hne : ls ≠ [])
    (hls : ∀ line ∈ ls, Stays line) (hend : lineEnd = [] ∨ lineEnd = ['\n']) : lines text = ls := by
  have hread : Text.lines text.toList = ls := by
    rw [htext]
    exact Text.lines_intercalate hne (fun l hl => ⟨(hls l hl).no_newline, (hls l hl).filled⟩) hend
  have htrim : ls.map Text.trim = ls :=
    (List.map_congr_left fun l hl => (hls l hl).trimmed).trans (List.map_id ls)
  rw [lines, hread, htrim]
  exact List.filter_eq_self.mpr fun l hl => by simpa using (hls l hl).filled

/-- A word that a line can hold: no line feed is in it, and no blank ends it. A blank may
begin it, as the sign comes before. -/
structure Test.FitsLine (x : Test) : Prop where
  no_newline : '\n' ∉ x.word.toList
  no_blank : x.word.toList.getLast?.any Text.isBlank = false

/-- The line of a test stays: it begins with its sign, and it ends as its word does, or
with the sign if the word is empty. -/
theorem Test.stays_line {x : Test} (h : x.FitsLine) : Stays x.line where
  no_newline hmem := by
    rcases List.mem_cons.mp hmem with hsign | hword
    · have hblank : Text.isBlank '\n' = false := hsign ▸ x.isBlank_sign
      exact nomatch hblank
    · exact h.no_newline hword
  filled := List.cons_ne_nil _ _
  trimmed := by
    refine Text.trim_eq_self (fun c hc => Option.some.inj hc ▸ x.isBlank_sign) fun c hc => ?_
    rw [line, List.getLast?_cons] at hc
    obtain rfl := Option.some.inj hc
    have hword := h.no_blank
    -- the line ends with the last character of its word, or with its sign
    cases hlast : x.word.toList.getLast? with
    | none => exact x.isBlank_sign
    | some c =>
      rw [hlast] at hword
      exact hword

/-- A line without blanks stays. -/
theorem stays_of_no_blank {line : List Char} (hne : line ≠ [])
    (hblank : ∀ c ∈ line, Text.isBlank c = false) : Stays line where
  no_newline hmem := nomatch hblank '\n' hmem
  filled := hne
  trimmed := Text.trim_eq_self (fun c hc => hblank c (List.mem_of_head? hc))
    fun c hc => hblank c (List.mem_of_getLast? hc)

/-- What is written is read back line by line: the pattern first, and then each of the
tests. -/
theorem lines_written {pattern lineEnd : String} {tests : List Test}
    (hpattern : Stays pattern.toList) (htests : ∀ x ∈ tests, x.FitsLine)
    (hend : lineEnd = "" ∨ lineEnd = "\n") :
    lines (written pattern tests ++ lineEnd) = pattern.toList :: tests.map Test.line := by
  have hwritten : (written pattern tests ++ lineEnd).toList =
      ['\n'].intercalate (pattern.toList :: tests.map Test.line) ++ lineEnd.toList := by
    simp [written, Function.comp_def]
  refine lines_intercalate hwritten (List.cons_ne_nil _ _) (fun line hline => ?_)
    (hend.imp (congrArg String.toList) (congrArg String.toList))
  rcases List.mem_cons.mp hline with rfl | hline
  · exact hpattern
  · obtain ⟨x, hx, rfl⟩ := List.mem_map.mp hline
    exact Test.stays_line (htests x hx)

/-- A pattern is no header, unless it is the word that headers start with. It has no
blank, so the line is a single word, and a header begins with that word. -/
theorem header?_pattern {o : Options} {pattern : String} {t : ParseTree}
    (hcompile : compile o pattern = .ok t) (hne : pattern ≠ "") (hword : pattern ≠ "dialect") :
    header? pattern.toList = .ok none := by
  have hfilled : pattern.toList ≠ [] := mt String.toList_eq_nil_iff.mp hne
  rw [header?, Text.words_eq_singleton (isBlank_eq_false_of_compile hcompile) hfilled]
  exact if_pos (mt String.toList_inj.mp hword)

/-- A file whose first line is no header is tested under the options that were given. -/
theorem check_eq_of_pattern {o : Options} {text pattern : String} {rest : List (List Char)}
    (hlines : lines text = pattern.toList :: rest) (hheader : header? pattern.toList = .ok none) :
    check o text = checkPattern o pattern rest := by
  rw [check, hlines, splitHeader, hheader]
  exact congrArg (checkPattern o · rest) String.ofList_toList

/-- A run ends well exactly if the tests are right about the words of the tree. Here
verdicts of automata are left behind: only the language is talked about. -/
theorem Reported.result_eq_ok_iff {accepted : String → Bool} {o : Options} {pattern : String}
    {t : ParseTree} {tests : List Test} {tr : Transcript} (hdecides : Decides accepted t)
    (h : Reported accepted o pattern tests (ending accepted tests) tr) :
    tr.result = .ok () ↔ ∀ x ∈ tests, (x.expected = true ↔ t.Language x.word.toList) := by
  have hfails (x : Test) : ¬ x.fails accepted = true ↔
      (x.expected = true ↔ t.Language x.word.toList) := by
    rw [← hdecides x.word, Test.fails]
    cases accepted x.word <;> cases x.expected <;> decide
  have hend : tr.result = .ok () ↔ failures accepted tests = 0 := by
    have hresult := h.result_eq
    unfold ending at hresult
    split at hresult <;> cases hr : tr.result <;> simp_all [Except.mapError]
  rw [hend, failures, List.countP_eq_zero]
  exact forall₂_congr fun x _ => hfails x

/-- **Files without a header**: under the dialect that was given, every test is reported
with the verdict that the language of the pattern gives. A run ends well exactly if the
tests say what the language is. -/
theorem check_written {o : Options} {pattern lineEnd : String} {tests : List Test} {t : ParseTree}
    (hcompile : compile o pattern = .ok t) (hne : pattern ≠ "") (hword : pattern ≠ "dialect")
    (htests : ∀ x ∈ tests, x.FitsLine) (hend : lineEnd = "" ∨ lineEnd = "\n") :
    ∃ accepted, Decides accepted t ∧
      Reported accepted o pattern tests (ending accepted tests)
        (check o (written pattern tests ++ lineEnd)) ∧
      ((check o (written pattern tests ++ lineEnd)).result = .ok () ↔
        ∀ x ∈ tests, (x.expected = true ↔ t.Language x.word.toList)) := by
  obtain ⟨accepted, hdecides, htested, -⟩ := exists_reported hcompile
  -- a pattern has no blank, so its line is read back as it stands
  have hstays : Stays pattern.toList := stays_of_no_blank (mt String.toList_eq_nil_iff.mp hne)
    (isBlank_eq_false_of_compile hcompile)
  have hreported : Reported accepted o pattern tests (ending accepted tests)
      (check o (written pattern tests ++ lineEnd)) := by
    rw [check_eq_of_pattern (lines_written hstays htests hend) (header?_pattern hcompile hne hword)]
    exact htested tests
  exact ⟨accepted, hdecides, hreported, hreported.result_eq_ok_iff hdecides⟩

/-- With both signs, an empty word, and a test that fails, which begins with a blank:
blanks before a word belong to it. -/
theorem check_written_of_interleaving :
    let o : Options := { dialect := .parallel }
    let tests : List Test := [⟨true, "ba"⟩, ⟨false, ""⟩, ⟨true, " a"⟩]
    ∃ t accepted, compile o "a&b" = .ok t ∧ Decides accepted t ∧
      Reported accepted o "a&b" tests (ending accepted tests)
        (check o (written "a&b" tests ++ "\n")) ∧
      ((check o (written "a&b" tests ++ "\n")).result = .ok () ↔
        ∀ x ∈ tests, (x.expected = true ↔ t.Language x.word.toList)) := by
  intro o tests
  have hscan : firstError? o "a&b" = none := by decide
  obtain ⟨body, h⟩ := exists_compile_eq_ok hscan
  have htests : ∀ x ∈ tests, x.FitsLine :=
    List.forall_mem_cons.mpr ⟨⟨by decide, by decide⟩, List.forall_mem_cons.mpr
      ⟨⟨by decide, by decide⟩, List.forall_mem_singleton.mpr ⟨by decide, by decide⟩⟩⟩
  obtain ⟨accepted, hreport⟩ := check_written h (by decide) (by decide) htests (.inr rfl)
  exact ⟨_, accepted, h, hreport⟩

/-- The word that headers start with is a pattern, but a file with it is taken for one
with an unknown header, though all of its tests are right. -/
theorem check_written_dialect :
    let tests : List Test := [⟨true, "dialect"⟩]
    ∃ t, compile {} "dialect" = .ok t ∧ (∀ x ∈ tests, x.FitsLine) ∧
      (∀ x ∈ tests, (x.expected = true ↔ t.Language x.word.toList)) ∧
      written "dialect" tests ++ "\n" = "dialect\n+dialect\n" ∧
      (check {} "dialect\n+dialect\n").result = .error (.unknownHeader "dialect") := by
  intro tests
  -- the word is read as the letters in turn, so its own text is its only word
  let e : Expr Char := .concat (.concat (.concat (.concat (.concat (.concat (.leaf 'd') (.leaf 'i'))
    (.leaf 'a')) (.leaf 'l')) (.leaf 'e')) (.leaf 'c')) (.leaf 't')
  have htext : String.ofList e.pattern = "dialect" := by cbv
  have h : compile {} "dialect" = .ok (.ofExpr _ .plain e) :=
    compile_eq_ok_of_pattern htext (by decide) (by decide)
  have hword : (ParseTree.ofExpr "dialect" .plain e).Language "dialect".toList :=
    ParseTree.language_ofExpr.mpr <| .concat (.concat (.concat (.concat (.concat (.concat
      (.leaf 'd') (.leaf 'i')) (.leaf 'a')) (.leaf 'l')) (.leaf 'e')) (.leaf 'c')) (.leaf 't')
  exact ⟨_, h, List.forall_mem_singleton.mpr ⟨by decide, by decide⟩,
    List.forall_mem_singleton.mpr (iff_of_true rfl hword), by decide, by decide⟩

end TestFile
end PatternAutomata
