import PatternAutomata.Text.CharRanges

/-!
# Pattern automata — blanks, words and lines

A blank is a character with the Unicode property White_Space. Texts are trimmed
of blanks, cut into the words between them, and cut into lines.

## Results

* `isBlank_of_isWhitespace` — what core counts as white space is blank.
* `trim_eq_self`            — a text with no blank at its ends is trimmed already.
* `words_eq_singleton`      — a text without blanks is one word.
* `lines_intercalate`       — lines put together with line feeds are read back.
-/

namespace PatternAutomata.Text

/-- Code points with the property White_Space. -/
def blankRanges : List (Nat × Nat) := [
  (0x09, 0x0d), (0x20, 0x20), (0x85, 0x85), (0xa0, 0xa0), (0x1680, 0x1680), (0x2000, 0x200a),
  (0x2028, 0x2029), (0x202f, 0x202f), (0x205f, 0x205f), (0x3000, 0x3000)]

def isBlank (c : Char) : Bool :=
  inRanges c.toNat blankRanges

/-- What core counts as white space is blank. -/
theorem isBlank_of_isWhitespace {c : Char} (h : c.isWhitespace = true) : isBlank c = true := by
  simp only [Char.isWhitespace, Bool.or_eq_true, decide_eq_true_eq] at h
  rcases h with ((rfl | rfl) | rfl) | rfl <;> decide

/-- No code point between the space and the next line control is blank. -/
theorem isBlank_eq_false {c : Char} (hlow : 0x20 < c.toNat) (hhigh : c.toNat < 0x85) :
    isBlank c = false := by
  simp only [isBlank, blankRanges, inRanges]
  grind

/-- The text without the blanks at its two ends. -/
def trim (s : List Char) : List Char :=
  ((s.dropWhile isBlank).reverse.dropWhile isBlank).reverse

theorem dropWhile_isBlank_eq_self {s : List Char} (hhead : ∀ c ∈ s.head?, isBlank c = false) :
    s.dropWhile isBlank = s := by
  cases s with
  | nil => rfl
  | cons c rest => rw [List.dropWhile_cons_of_neg (Bool.not_eq_true _ ▸ hhead c rfl)]

/-- A text with no blank at its ends is trimmed already. -/
theorem trim_eq_self {s : List Char} (hhead : ∀ c ∈ s.head?, isBlank c = false)
    (hlast : ∀ c ∈ s.getLast?, isBlank c = false) : trim s = s := by
  have hreverse : ∀ c ∈ s.reverse.head?, isBlank c = false := List.head?_reverse ▸ hlast
  rw [trim, dropWhile_isBlank_eq_self hhead, dropWhile_isBlank_eq_self hreverse,
    List.reverse_reverse]

/-- The words of a text: its longest runs without a blank. `run` is the one being read. -/
def wordsFrom (run : List Char) : List Char → List (List Char)
  | [] => if run.isEmpty then [] else [run.reverse]
  | c :: rest =>
    if isBlank c then
      if run.isEmpty then wordsFrom [] rest else run.reverse :: wordsFrom [] rest
    else wordsFrom (c :: run) rest

/-- The words between the blanks; there are none in a text of blanks. -/
def words (s : List Char) : List (List Char) := wordsFrom [] s

/-- What has no blank is read to its end. -/
theorem wordsFrom_eq_singleton {run s : List Char} (hs : ∀ c ∈ s, isBlank c = false)
    (hne : run ≠ [] ∨ s ≠ []) : wordsFrom run s = [run.reverse ++ s] := by
  induction s generalizing run with
  | nil =>
    have hrun : run ≠ [] := hne.resolve_right (· rfl)
    rw [wordsFrom, if_neg (mt List.isEmpty_iff.mp hrun), List.append_nil]
  | cons c rest ih =>
    have hc : isBlank c = false := hs c List.mem_cons_self
    rw [wordsFrom, if_neg (Bool.not_eq_true _ ▸ hc),
      ih (fun c hc => hs c (List.mem_cons_of_mem _ hc)) (.inl (List.cons_ne_nil c run)),
      List.reverse_cons, List.append_assoc, List.singleton_append]

/-- A text without blanks is one word. -/
theorem words_eq_singleton {s : List Char} (hs : ∀ c ∈ s, isBlank c = false) (hne : s ≠ []) :
    words s = [s] :=
  wordsFrom_eq_singleton hs (.inr hne)

/-- The lines of a text: each ends with a line feed, which the last may lack.
`line` is the one being read. -/
def linesFrom (line : List Char) : List Char → List (List Char)
  | [] => if line.isEmpty then [] else [line.reverse]
  | c :: rest => if c = '\n' then line.reverse :: linesFrom [] rest else linesFrom (c :: line) rest

def lines (s : List Char) : List (List Char) := linesFrom [] s

/-- Up to its line feed a line is read character by character. -/
theorem linesFrom_append {line : List Char} (hline : '\n' ∉ line) (run rest : List Char) :
    linesFrom run (line ++ rest) = linesFrom (line.reverse ++ run) rest := by
  induction line generalizing run with
  | nil => rfl
  | cons c line ih =>
    have hc : c ≠ '\n' := (List.ne_of_not_mem_cons hline).symm
    rw [List.cons_append, linesFrom, if_neg hc, ih (List.not_mem_of_not_mem_cons hline),
      List.reverse_cons, List.append_assoc, List.singleton_append]

/-- A line feed ends the first line, and the others are read after it. -/
theorem lines_append_newline {line : List Char} (hline : '\n' ∉ line) (rest : List Char) :
    lines (line ++ '\n' :: rest) = line :: lines rest := by
  rw [lines, linesFrom_append hline, linesFrom, if_pos rfl, List.append_nil, List.reverse_reverse,
    lines]

/-- The last line may lack its line feed, if there is anything in it. -/
theorem lines_last {line ending : List Char} (hline : '\n' ∉ line) (hne : line ≠ [])
    (hending : ending = [] ∨ ending = ['\n']) : lines (line ++ ending) = [line] := by
  obtain rfl | rfl := hending
  · rw [lines, linesFrom_append hline, linesFrom, List.append_nil, List.reverse_reverse,
      if_neg (by simpa using hne)]
  · exact lines_append_newline hline []

/-- Lines put together with line feeds are read back. -/
theorem lines_intercalate {ls : List (List Char)} {ending : List Char} (hne : ls ≠ [])
    (hls : ∀ line ∈ ls, '\n' ∉ line ∧ line ≠ []) (hending : ending = [] ∨ ending = ['\n']) :
    lines (['\n'].intercalate ls ++ ending) = ls := by
  induction ls with
  | nil => exact absurd rfl hne
  | cons line ls ih =>
    obtain ⟨hline, hfilled⟩ := hls line List.mem_cons_self
    -- only the last line may lack its line feed
    cases ls with
    | nil =>
      rw [List.intercalate_singleton]
      exact lines_last hline hfilled hending
    | cons next ls =>
      rw [List.intercalate_cons_cons, List.append_assoc, List.append_assoc, List.singleton_append,
        lines_append_newline hline,
        ih (List.cons_ne_nil next ls) fun l hl => hls l (List.mem_cons_of_mem _ hl)]

end PatternAutomata.Text
