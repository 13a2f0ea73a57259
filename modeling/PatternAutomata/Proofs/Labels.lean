import PatternAutomata.Positions

/-!
# Pattern automata — labels that tell states apart

A state is made by its label, so two states of one label are one state. The
labels of the constructions are put together from numbers: `q7` for a fresh
state, `(x,y)` for a pair, `{x,y,z}` for a set. They are unambiguous because no
such text is continued by another one: whatever follows a number is no digit.

That property is `Separable`. It passes from the members of a list to the list in
braces, and names built from numbers have it however deep their pairs are nested.

## Results

* `separable_decimal`  — decimal numbers are separable.
* `Separable.braces`   — lists of separable texts are told apart in braces.
* `positionsLabel_inj` — the label of a set of positions tells the set.
* `separable_stateName`, `StateName.numbers_meet` — so are the names of states, and
  names over different numbers differ.
* `pairText_inj_left`, `pairText_inj_right`, `braces_inj` — any labels without commas are told
  apart in pairs and lists; labels with commas are not.
-/

namespace PatternAutomata

-- ---------------------------------------------------------------------------
-- Texts that end where something else begins
-- ---------------------------------------------------------------------------

/-- What follows does not begin with a digit, so it cannot be taken for a part of a number
before it. -/
def Stops (s : List Char) : Prop := ∀ c ∈ s.head?, c.isDigit = false

theorem stops_cons {c : Char} {s : List Char} (h : c.isDigit = false) : Stops (c :: s) := by
  intro d hd
  cases hd
  exact h

theorem stops_nil : Stops [] := fun _ hc => nomatch hc

/-- Texts of which none goes on as another, if no digit follows. It is said with what
comes behind, as texts are put together from left to right: where one ends, the other one
does, and the induction goes on behind it. -/
def Separable (T : String → Prop) : Prop :=
  ∀ x y, T x → T y → ∀ s t, Stops s → Stops t →
    x.toList ++ s = y.toList ++ t → x = y ∧ s = t

/-- The digits of a number end where it does, if what follows does not begin with a digit.
So a number can be read back from a text that goes on. -/
theorem takeWhile_digits_append {i : Nat} {s : List Char} (hs : Stops s) :
    (Nat.toDigits 10 i ++ s).takeWhile Char.isDigit = Nat.toDigits 10 i := by
  have hdigits : ∀ c ∈ Nat.toDigits 10 i, c.isDigit = true := fun c hc =>
    Nat.isDigit_of_mem_toDigits (by omega) (by omega) hc
  rw [List.takeWhile_append_of_pos hdigits]
  cases s with
  | nil => simp
  | cons c s => simp [hs c rfl]

theorem toDigits_inj {i j : Nat} (h : Nat.toDigits 10 i = Nat.toDigits 10 j) : i = j := by
  calc
    i = Nat.ofDigitChars 10 (Nat.toDigits 10 i) 0 := Nat.ofDigitChars_ten_toDigits.symm
    _ = Nat.ofDigitChars 10 (Nat.toDigits 10 j) 0 := by rw [h]
    _ = j := Nat.ofDigitChars_ten_toDigits

theorem digits_append_inj {i j : Nat} {s t : List Char} (hs : Stops s) (ht : Stops t)
    (h : Nat.toDigits 10 i ++ s = Nat.toDigits 10 j ++ t) : i = j ∧ s = t := by
  have hdigits : Nat.toDigits 10 i = Nat.toDigits 10 j := by
    rw [← takeWhile_digits_append hs, h, takeWhile_digits_append ht]
  exact ⟨toDigits_inj hdigits, List.append_cancel_left (hdigits ▸ h)⟩

theorem toList_toString (i : Nat) : (toString i).toList = Nat.toDigits 10 i := by
  rw [Nat.toString_eq_ofList_toDigits, String.toList_ofList]

/-- Decimal numbers are separable, though one may begin as another does: `1` and `12`
differ in that a digit follows. -/
theorem separable_decimal : Separable fun x => ∃ i : Nat, x = toString i := by
  rintro x y ⟨i, rfl⟩ ⟨j, rfl⟩ s t hs ht h
  rw [toList_toString, toList_toString] at h
  obtain ⟨rfl, rfl⟩ := digits_append_inj hs ht h
  exact ⟨rfl, rfl⟩

-- ---------------------------------------------------------------------------
-- Lists in braces
-- ---------------------------------------------------------------------------

/-- The members of a list, each with what separates it from the next, and the closing brace. -/
def closed : List String → List Char
  | [] => ['\x7d']
  | [x] => x.toList ++ ['\x7d']
  | x :: y :: rest => x.toList ++ ',' :: closed (y :: rest)

/-- What is printed in braces is the brace and the members behind it. With the closing
brace taken as a part of the list, the members can be read off one after the other. -/
theorem toList_braces (xs : List String) :
    ("\x7b" ++ ",".intercalate xs ++ "\x7d").toList = '\x7b' :: closed xs := by
  have hclosed : (",".intercalate xs).toList ++ ['\x7d'] = closed xs := by
    induction xs with
    | nil => simp [closed]
    | cons x xs ih =>
      cases xs with
      | nil => simp [closed]
      | cons y rest =>
        rw [String.intercalate_cons_cons, closed, ← ih]
        simp
  rw [String.toList_append, String.toList_append, ← hclosed]
  rfl

/-- The first member ends where a comma or a brace begins. -/
theorem exists_closed_eq (x : String) (xs : List String) :
    ∃ s, Stops s ∧ closed (x :: xs) = x.toList ++ s ∧
      ((xs = [] ∧ s = ['\x7d']) ∨ (xs ≠ [] ∧ s = ',' :: closed xs)) := by
  cases xs with
  | nil => exact ⟨['\x7d'], stops_cons (by decide), rfl, .inl ⟨rfl, rfl⟩⟩
  | cons y rest =>
    exact ⟨_, stops_cons (by decide), rfl, .inr ⟨List.cons_ne_nil y rest, rfl⟩⟩

/-- Lists of separable texts are told apart in braces. The induction is on the first list;
the closing brace tells a list that has ended from one that has not, since no text begins
with it. -/
theorem Separable.braces {T : String → Prop} (hT : Separable T)
    (hhead : ∀ x, T x → ∃ c rest, x.toList = c :: rest ∧ c ≠ '\x7d') {xs ys : List String}
    (hx : ∀ x ∈ xs, T x) (hy : ∀ y ∈ ys, T y)
    (h : "\x7b" ++ ",".intercalate xs ++ "\x7d" = "\x7b" ++ ",".intercalate ys ++ "\x7d") :
    xs = ys := by
  have hclosed : closed xs = closed ys := by
    have hlists := congrArg String.toList h
    rw [toList_braces, toList_braces] at hlists
    exact (List.cons.inj hlists).2
  -- the empty list closes at once, and no member begins with a brace
  have hnonempty : ∀ x xs, T x → closed (x :: xs) ≠ closed [] := by
    intro x xs hx heq
    obtain ⟨s, -, hs, -⟩ := exists_closed_eq x xs
    obtain ⟨c, rest, hc, hne⟩ := hhead x hx
    rw [hs, hc] at heq
    exact hne (List.cons.inj heq).1
  clear h
  induction xs generalizing ys with
  | nil =>
    cases ys with
    | nil => rfl
    | cons y ys => exact absurd hclosed.symm (hnonempty y ys (hy y List.mem_cons_self))
  | cons x xs ih =>
    obtain ⟨s, hstops, hs, hrest⟩ := exists_closed_eq x xs
    cases ys with
    | nil => exact absurd hclosed (hnonempty x xs (hx x List.mem_cons_self))
    | cons y ys =>
      obtain ⟨t, hstopt, ht, hrest'⟩ := exists_closed_eq y ys
      rw [hs, ht] at hclosed
      obtain ⟨rfl, hst⟩ := hT x y (hx x List.mem_cons_self) (hy y List.mem_cons_self) s t
        hstops hstopt hclosed
      rcases hrest with ⟨rfl, rfl⟩ | ⟨-, rfl⟩
      · rcases hrest' with ⟨rfl, -⟩ | ⟨-, rfl⟩
        · rfl
        · exact absurd hst (by simp)
      · rcases hrest' with ⟨-, rfl⟩ | ⟨-, rfl⟩
        · exact absurd hst (by simp)
        · rw [ih (fun z hz => hx z (List.mem_cons_of_mem _ hz))
            (fun z hz => hy z (List.mem_cons_of_mem _ hz)) (List.cons.inj hst).2]

/-- Every number has a digit to begin with. -/
theorem exists_toDigits_eq (i : Nat) :
    ∃ c rest, Nat.toDigits 10 i = c :: rest ∧ c.isDigit = true := by
  cases hd : Nat.toDigits 10 i with
  | nil => exact absurd hd Nat.toDigits_ne_nil
  | cons c rest =>
    have hmem : c ∈ Nat.toDigits 10 i := hd ▸ List.mem_cons_self
    exact ⟨c, rest, rfl, Nat.isDigit_of_mem_toDigits (by omega) (by omega) hmem⟩

/-- The label of a set of positions tells the set: its members are printed in their
order. -/
theorem positionsLabel_inj {s t : SortedSet Nat} (h : positionsLabel s = positionsLabel t) :
    s = t := by
  have hdecimal : ∀ u : SortedSet Nat, ∀ x ∈ u.toList.map toString, ∃ i : Nat, x = toString i := by
    intro u x hx
    obtain ⟨i, -, rfl⟩ := List.mem_map.mp hx
    exact ⟨i, rfl⟩
  -- a number begins with a digit, which is no brace
  have hhead : ∀ x, (∃ i : Nat, x = toString i) →
      ∃ c rest, x.toList = c :: rest ∧ c ≠ '\x7d' := by
    rintro x ⟨i, rfl⟩
    obtain ⟨c, rest, hc, hdigit⟩ := exists_toDigits_eq i
    refine ⟨c, rest, (toList_toString i).trans hc, ?_⟩
    rintro rfl
    exact absurd hdigit (by decide)
  have hlist := separable_decimal.braces hhead (hdecimal s) (hdecimal t) h
  have hnumbers : s.toList = t.toList := by
    refine (List.map_inj_right fun i j hij => toDigits_inj ?_).mp hlist
    rw [← toList_toString, hij, toList_toString]
  exact SortedSet.ext fun a => by rw [← SortedSet.mem_toList, hnumbers, SortedSet.mem_toList]

-- ---------------------------------------------------------------------------
-- Names of states
-- ---------------------------------------------------------------------------

/-- The label of the state with this number. -/
def freshLabel (i : Nat) : String := s!"q{i}"

/-- The label of a pair of states. -/
def pairText (x y : String) : String := s!"({x},{y})"

/-- The names that states get from numbers that satisfy `P`: fresh ones, and pairs of them
as deep as interleavings are nested. -/
inductive StateName (P : Nat → Prop) : String → Prop
  | fresh {i : Nat} : P i → StateName P (freshLabel i)
  | pair {x y : String} : StateName P x → StateName P y → StateName P (pairText x y)

theorem toList_freshLabel (i : Nat) : (freshLabel i).toList = 'q' :: Nat.toDigits 10 i := by
  unfold freshLabel
  rw [String.toList_append, ← toList_toString]
  rfl

/-- A pair is printed in brackets, with a comma between its members. -/
theorem toList_pairText (x y : String) :
    (pairText x y).toList = '(' :: (x.toList ++ ',' :: (y.toList ++ [')'])) := by
  simp [pairText, String.toList_append, toString]

/-- A name begins with the sign of a fresh label or with a bracket, and never with a
brace. -/
theorem StateName.exists_head {P : Nat → Prop} {x : String} (hx : StateName P x) :
    ∃ c rest, x.toList = c :: rest ∧ c ≠ '\x7d' := by
  cases hx with
  | fresh => exact ⟨_, _, toList_freshLabel _, by decide⟩
  | pair => exact ⟨_, _, toList_pairText _ _, by decide⟩

theorem StateName.mono {P Q : Nat → Prop} (h : ∀ i, P i → Q i) {x : String}
    (hx : StateName P x) : StateName Q x := by
  induction hx with
  | fresh hi => exact .fresh (h _ hi)
  | pair _ _ ihx ihy => exact .pair ihx ihy

/-- A name ends where the text after it begins, if that is no digit; and it tells its
numbers. The induction is on the first name: a fresh label ends with its digits, and a
pair with its bracket, whatever its members are. -/
theorem stateName_append_inj {P Q : Nat → Prop} {x y : String} (hx : StateName P x)
    (hy : StateName Q y) {s t : List Char} (hs : Stops s) (ht : Stops t)
    (h : x.toList ++ s = y.toList ++ t) : x = y ∧ s = t ∧ ∃ i, P i ∧ Q i := by
  induction hx generalizing y s t with
  | @fresh i hi =>
    cases hy with
    | @fresh j hj =>
      rw [toList_freshLabel, toList_freshLabel] at h
      obtain ⟨rfl, rfl⟩ := digits_append_inj hs ht (List.cons.inj h).2
      exact ⟨rfl, rfl, i, hi, hj⟩
    | @pair x' y' _ _ =>
      rw [toList_freshLabel, toList_pairText] at h
      exact absurd (List.cons.inj h).1 (by decide)
  | @pair x₁ x₂ _ _ ih₁ ih₂ =>
    cases hy with
    | @fresh j _ =>
      rw [toList_freshLabel, toList_pairText] at h
      exact absurd (List.cons.inj h).1 (by decide)
    | @pair y₁ y₂ hy₁ hy₂ =>
      rw [toList_pairText, toList_pairText] at h
      -- behind the bracket the left name ends at a comma, and the right one at a bracket
      have hrest : x₁.toList ++ ',' :: (x₂.toList ++ ')' :: s) =
          y₁.toList ++ ',' :: (y₂.toList ++ ')' :: t) := by
        simpa using (List.cons.inj h).2
      obtain ⟨rfl, hrest, hmeet⟩ := ih₁ hy₁ (stops_cons (by decide)) (stops_cons (by decide)) hrest
      obtain ⟨rfl, hrest, -⟩ := ih₂ hy₂ (stops_cons (by decide)) (stops_cons (by decide))
        (List.cons.inj hrest).2
      exact ⟨rfl, (List.cons.inj hrest).2, hmeet⟩

/-- Names of states are separable. -/
theorem separable_stateName {P : Nat → Prop} : Separable (StateName P) := by
  intro x y hx hy s t hs ht h
  obtain ⟨hxy, hst, -⟩ := stateName_append_inj hx hy hs ht h
  exact ⟨hxy, hst⟩

/-- Names over different numbers differ. So automata that were made from different numbers
share no name. -/
theorem StateName.numbers_meet {P Q : Nat → Prop} {x : String} (hx : StateName P x)
    (hy : StateName Q x) : ∃ i, P i ∧ Q i :=
  (stateName_append_inj hx hy stops_nil stops_nil rfl).2.2

/-- A pair's name tells the names of its members. Its comma is the one behind the left
name, even if that holds commas itself. -/
theorem pairText_inj {P : Nat → Prop} {x₁ x₂ y₁ y₂ : String} (hx₁ : StateName P x₁)
    (hx₂ : StateName P x₂) (hy₁ : StateName P y₁) (hy₂ : StateName P y₂)
    (h : pairText x₁ x₂ = pairText y₁ y₂) : x₁ = y₁ ∧ x₂ = y₂ := by
  have hlists := congrArg String.toList h
  rw [toList_pairText, toList_pairText] at hlists
  obtain ⟨rfl, hrest, -⟩ := stateName_append_inj hx₁ hy₁ (stops_cons (by decide))
    (stops_cons (by decide)) (List.cons.inj hlists).2
  obtain ⟨rfl, -, -⟩ := stateName_append_inj hx₂ hy₂ (stops_cons (by decide))
    (stops_cons (by decide)) (List.cons.inj hrest).2
  exact ⟨rfl, rfl⟩

theorem freshLabel_inj {i j : Nat} (h : freshLabel i = freshLabel j) : i = j := by
  have hlists := congrArg String.toList h
  rw [toList_freshLabel, toList_freshLabel] at hlists
  exact toDigits_inj (List.cons.inj hlists).2

-- ---------------------------------------------------------------------------
-- Labels without commas
-- ---------------------------------------------------------------------------

/-- The text cannot be taken for more than one member of a list. Labels that come from
outside may hold commas, and then nothing is said of them. -/
def CommaFree (x : String) : Prop := ',' ∉ x.toList

instance : DecidablePred CommaFree := fun x => inferInstanceAs (Decidable (',' ∉ x.toList))

/-- What is before the first comma, and what is behind it. Without a comma in the first
part, the first comma of the text is the one between them. -/
theorem append_comma_inj {x y s t : List Char} (hx : ',' ∉ x) (hy : ',' ∉ y)
    (h : x ++ ',' :: s = y ++ ',' :: t) : x = y ∧ s = t := by
  have hbefore : ∀ z u : List Char, ',' ∉ z → (z ++ ',' :: u).takeWhile (· != ',') = z := by
    intro z u hz
    have hall : ∀ c ∈ z, (c != ',') = true := by
      rintro c hc
      exact bne_iff_ne.mpr fun h => hz (h ▸ hc)
    rw [List.takeWhile_append_of_pos hall]
    simp
  have hxy : x = y := by rw [← hbefore x s hx, h, hbefore y t hy]
  subst hxy
  exact ⟨rfl, (List.cons.inj (List.append_cancel_left h)).2⟩

/-- A pair's label tells its members if the left one holds no comma … -/
theorem pairText_inj_left {x₁ x₂ y₁ y₂ : String} (hx : CommaFree x₁) (hy : CommaFree y₁)
    (h : pairText x₁ x₂ = pairText y₁ y₂) : x₁ = y₁ ∧ x₂ = y₂ := by
  have hlists := congrArg String.toList h
  rw [toList_pairText, toList_pairText] at hlists
  obtain ⟨hleft, hright⟩ := append_comma_inj hx hy (List.cons.inj hlists).2
  exact ⟨String.toList_inj.mp hleft, String.toList_inj.mp (List.append_cancel_right hright)⟩

/-- … or if the right one holds none, as then the last comma is the one between them. The
texts are read from their ends. -/
theorem pairText_inj_right {x₁ x₂ y₁ y₂ : String} (hx : CommaFree x₂) (hy : CommaFree y₂)
    (h : pairText x₁ x₂ = pairText y₁ y₂) : x₁ = y₁ ∧ x₂ = y₂ := by
  have hlists := congrArg String.toList h
  rw [toList_pairText, toList_pairText] at hlists
  have hreversed := congrArg List.reverse (List.cons.inj hlists).2
  have hmembers : x₂.toList.reverse ++ ',' :: x₁.toList.reverse =
      y₂.toList.reverse ++ ',' :: y₁.toList.reverse := by simpa using hreversed
  obtain ⟨hright, hleft⟩ := append_comma_inj (fun h => hx (List.mem_reverse.mp h))
    (fun h => hy (List.mem_reverse.mp h)) hmembers
  exact ⟨String.toList_inj.mp (List.reverse_inj.mp hleft),
    String.toList_inj.mp (List.reverse_inj.mp hright)⟩

/-- A list in braces tells its members if none of them holds a comma. No members read the
same as one empty member, so both lists must have some. -/
theorem braces_inj {xs ys : List String} (hx : ∀ x ∈ xs, CommaFree x)
    (hy : ∀ y ∈ ys, CommaFree y) (hxs : xs ≠ []) (hys : ys ≠ [])
    (h : "\x7b" ++ ",".intercalate xs ++ "\x7d" = "\x7b" ++ ",".intercalate ys ++ "\x7d") :
    xs = ys := by
  -- at its commas the text falls apart into the members again
  have hsplit : ∀ zs : List String, (∀ z ∈ zs, CommaFree z) → zs ≠ [] →
      (",".intercalate zs).toList.splitOn ',' = zs.map String.toList := by
    intro zs hzs hne
    rw [String.toList_intercalate]
    refine List.splitOn_intercalate ',' (fun l hl => ?_) (by simpa using hne)
    obtain ⟨z, hz, rfl⟩ := List.mem_map.mp hl
    exact hzs z hz
  have hjoined : (",".intercalate xs).toList = (",".intercalate ys).toList := by
    have hlists := congrArg String.toList h
    rw [String.toList_append, String.toList_append, String.toList_append, String.toList_append]
      at hlists
    exact List.append_cancel_left (List.append_cancel_right hlists)
  have hmembers : xs.map String.toList = ys.map String.toList := by
    rw [← hsplit xs hx hxs, hjoined, hsplit ys hy hys]
  exact (List.map_inj_right fun _ _ => String.toList_inj.mp).mp hmembers

end PatternAutomata
