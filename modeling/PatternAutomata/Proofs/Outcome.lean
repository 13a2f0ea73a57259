/-!
# Pattern automata — computations that succeed

Most operations can fail, and a theorem about a construction says that it does
not. These lemmas take the loops of the library as what they compute if no step
of theirs fails.
-/

namespace PatternAutomata

variable {ε α β : Type}

theorem ok_bind {x : α} {f : α → Except ε β} : (Except.ok x >>= f) = f x := rfl

/-- A computation that succeeds does so in both its steps. It takes apart what is known to
succeed, with no step looked into. -/
theorem bind_eq_ok {x : Except ε α} {f : α → Except ε β} {b : β} :
    (x >>= f) = .ok b ↔ ∃ a, x = .ok a ∧ f a = .ok b := by
  cases x with
  | error e =>
    refine ⟨(fun h => nomatch h), ?_⟩
    rintro ⟨a, ha, -⟩
    exact nomatch ha
  | ok a =>
    refine ⟨fun h => ⟨a, rfl, h⟩, ?_⟩
    rintro ⟨_, ⟨⟩, h⟩
    exact h

theorem eq_ok_of_toOption {x : Except ε α} {a : α} (h : x.toOption = some a) : x = .ok a := by
  cases x with
  | error e => cases h
  | ok b => exact congrArg Except.ok (Option.some.inj h)

/-- A loop whose steps all succeed. -/
theorem mapM_eq_ok {f : α → Except ε β} {g : α → β} {l : List α} (h : ∀ x ∈ l, f x = .ok (g x)) :
    l.mapM f = .ok (l.map g) := by
  induction l with
  | nil => rfl
  | cons x l ih =>
    rw [List.mapM_cons, h x List.mem_cons_self, ih fun y hy => h y (List.mem_cons_of_mem _ hy)]
    rfl

/-- A loop that keeps an invariant on what it has gone through, and never fails while it
does. That the invariant speaks of the part gone through is what lets it grow with the
loop. -/
theorem exists_foldlM_eq_ok {P : List α → β → Prop} {f : β → α → Except ε β} {l : List α}
    (h : ∀ done x rest b, l = done ++ x :: rest → P done b →
      ∃ b', f b x = .ok b' ∧ P (done ++ [x]) b') {b : β} (hb : P [] b) :
    ∃ b', l.foldlM f b = .ok b' ∧ P l b' := by
  -- the list is kept whole, and what is left of it gets shorter
  have hrun : ∀ rest done b, l = done ++ rest → P done b →
      ∃ b', rest.foldlM f b = .ok b' ∧ P l b' := by
    intro rest
    induction rest with
    | nil =>
      intro done b hl hb
      rw [List.append_nil] at hl
      exact ⟨b, rfl, hl ▸ hb⟩
    | cons x rest ih =>
      intro done b hl hb
      obtain ⟨c, hstep, hc⟩ := h done x rest b hl hb
      obtain ⟨b', hrun, hb'⟩ := ih (done ++ [x]) c (by rw [hl, List.append_cons]) hc
      exact ⟨b', by rw [List.foldlM_cons, hstep, ok_bind, hrun], hb'⟩
  exact hrun l [] b rfl hb

/-- A loop that never fails and only adds: what a step adds for its element is there at
the end. The relation `R` says that nothing is lost. -/
theorem exists_foldlM_grows {P : β → Prop} {R : β → β → Prop} {Q : α → β → Prop}
    {f : β → α → Except ε β} {l : List α} (hrefl : ∀ b, R b b)
    (htrans : ∀ a b c, R a b → R b c → R a c) (hkeep : ∀ x b c, R b c → Q x b → Q x c)
    (hstep : ∀ x ∈ l, ∀ b, P b → ∃ c, f b x = .ok c ∧ P c ∧ R b c ∧ Q x c) {b : β} (hb : P b) :
    ∃ c, l.foldlM f b = .ok c ∧ P c ∧ R b c ∧ ∀ x ∈ l, Q x c := by
  induction l generalizing b with
  | nil => exact ⟨b, rfl, hb, hrefl b, fun _ hx => absurd hx List.not_mem_nil⟩
  | cons x l ih =>
    obtain ⟨c, hc, hPc, hbc, hx⟩ := hstep x List.mem_cons_self b hb
    obtain ⟨d, hd, hPd, hcd, hl⟩ := ih (fun y hy => hstep y (List.mem_cons_of_mem _ hy)) hPc
    refine ⟨d, by rw [List.foldlM_cons, hc, ok_bind, hd], hPd, htrans b c d hbc hcd, ?_⟩
    exact List.forall_mem_cons.mpr ⟨hkeep x c d hcd hx, hl⟩

/-- What a loop that succeeds keeps at every step it keeps at all. (That it succeeds is
given here; `exists_foldlM_eq_ok` proves it on the way.) -/
theorem foldlM_invariant {P : β → Prop} {f : β → α → Except ε β} {l : List α}
    (h : ∀ b x b', P b → f b x = .ok b' → P b') {b b' : β} (hb : P b)
    (hrun : l.foldlM f b = .ok b') : P b' := by
  induction l generalizing b with
  | nil => exact Except.ok.inj hrun ▸ hb
  | cons x l ih =>
    rw [List.foldlM_cons] at hrun
    obtain ⟨c, hstep, hrest⟩ := bind_eq_ok.mp hrun
    exact ih (h b x c hb hstep) hrest

/-- A loop that keeps some results only succeeds if all its steps do, those included whose
results are not kept. -/
theorem exists_of_filterMapM_eq_ok {f : α → Except ε (Option β)} {l : List α} {ys : List β} {x : α}
    (hrun : l.filterMapM f = .ok ys) (hx : x ∈ l) : ∃ y?, f x = .ok y? := by
  induction l generalizing ys with
  | nil => exact absurd hx List.not_mem_nil
  | cons z l ih =>
    rw [List.filterMapM_cons] at hrun
    obtain ⟨z?, hstep, hrest⟩ := bind_eq_ok.mp hrun
    rcases List.mem_cons.mp hx with rfl | hx
    · exact ⟨z?, hstep⟩
    · cases z? with
      | none => exact ih hrest hx
      | some z =>
        obtain ⟨ys', hys', -⟩ := bind_eq_ok.mp hrest
        exact ih hys' hx

/-- A loop that keeps some results, and never fails. What it has kept are the results of
its steps, and nothing else. -/
theorem exists_filterMapM_eq_ok {f : α → Except ε (Option β)} {l : List α}
    (h : ∀ x ∈ l, ∃ y?, f x = .ok y?) :
    ∃ ys, l.filterMapM f = .ok ys ∧ ∀ y, y ∈ ys ↔ ∃ x ∈ l, f x = .ok (some y) := by
  induction l with
  | nil => exact ⟨[], rfl, by simp⟩
  | cons x l ih =>
    obtain ⟨y?, hx⟩ := h x List.mem_cons_self
    obtain ⟨ys, hys, hmem⟩ := ih fun z hz => h z (List.mem_cons_of_mem _ hz)
    refine ⟨y?.toList ++ ys, ?_, fun y => ?_⟩
    · rw [List.filterMapM_cons, hx, ok_bind, hys]
      cases y? <;> rfl
    · rw [List.mem_append, Option.mem_toList, hmem]
      simp only [List.mem_cons, exists_eq_or_imp, hx]
      simp

end PatternAutomata
