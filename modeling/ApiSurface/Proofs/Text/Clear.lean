import ApiSurface.Proofs.Result
import ApiSurface.Proofs.Text.Cut
import ApiSurface.Proofs.Text.Nesting

/-!
Pieces that a scan takes whole. A text is clear of some separators when it is balanced and none of them
is at top level in it; the tokens of a line and the items of a list are such texts, and a scan takes a
clear text up to the separator that follows. Main statements: what a scan takes is clear
(`scanFrom_eq_ok_iff`, `segments_eq_ok_iff`), a text in brackets or in quotes is clear of everything
(`Clear.bracketed`, `clear_quoted`), and a list of clear items is read back (`items_join`).
-/

namespace ApiSurface.Text

open Nesting

variable {opens stops : List Char}

/-- A balanced text without a character of `stops` at top level. -/
def Clear (opens stops t : List Char) : Prop := top.through opens stops t = some .top

@[simp] theorem clear_nil : Clear opens stops [] := rfl

theorem Clear.append {a b : List Char} (ha : Clear opens stops a) (hb : Clear opens stops b) :
    Clear opens stops (a ++ b) := by
  unfold Clear at ha hb ⊢
  rw [through_append, ha]
  exact hb

/-- A text without marks and separators is clear. -/
theorem clear_of_plain (sub : opens ⊆ brackets) {t : List Char}
    (plain : ∀ c ∈ t, c ∉ marks ∧ c ∉ stops) : Clear opens stops t :=
  through_of_plain sub rfl plain

theorem Clear.of_subset {fewer t : List Char} (h : Clear opens stops t) (sub : fewer ⊆ stops) :
    Clear opens fewer t :=
  through_of_subset sub h

/-- A front part that is balanced is as clear as the whole. -/
theorem Clear.of_append_left {others a b : List Char} (h : Clear opens stops (a ++ b))
    (balanced : Clear opens others a) : Clear opens stops a := by
  obtain ⟨k, front, -⟩ := exists_of_through_append h
  have both := through_union balanced front
  have same : k = .top := by
    have swapped := through_of_subset (List.subset_append_right others stops) both
    rw [front] at swapped
    exact Option.some_inj.1 swapped
  rw [same] at front
  exact front

/-- Behind a balanced front part the rest is as clear as the whole. -/
theorem Clear.of_append_right {others a b : List Char} (h : Clear opens stops (a ++ b))
    (balanced : Clear opens others a) : Clear opens stops b := by
  have front : top.through opens stops a = some .top := h.of_append_left balanced
  unfold Clear at h
  rw [through_append, front] at h
  exact h

/-- No separator is the first character. -/
theorem Clear.head_notMem {c : Char} {t : List Char} (h : Clear opens stops (c :: t)) : c ∉ stops := by
  intro mem
  simp [Clear, through, mem] at h

/-- In front of blanks and other text without marks, a text is balanced if the whole is. -/
theorem Clear.dropRight {t tail : List Char} (h : Clear opens stops (t ++ tail))
    (plain : ∀ c ∈ tail, c ∉ marks) : Clear opens stops t := by
  obtain ⟨k, front, back⟩ := exists_of_through_append h
  have same : k = .top := eq_top_of_through (quoteMark_top.through front) plain back
  rw [same] at front
  exact front

/-- No separator is the last character. -/
theorem Clear.last_notMem {c : Char} {t : List Char} (h : Clear opens stops (t ++ [c]))
    (plain : c ∉ marks) : c ∉ stops := by
  have front : Clear opens stops t := h.dropRight (by simpa using plain)
  exact (h.of_append_right front).head_notMem

/-- Behind text without marks, a text is clear if the whole is. -/
theorem Clear.dropLeft (sub : opens ⊆ brackets) {t lead : List Char} (h : Clear opens stops (lead ++ t))
    (plain : ∀ c ∈ lead, c ∉ marks) : Clear opens stops t :=
  have front : Clear opens [] lead := clear_of_plain sub fun c mem => ⟨plain c mem, by simp⟩
  h.of_append_right front

/-- What is balanced in brackets is clear of all separators but the bracket. -/
theorem Clear.bracketed (sub : opens ⊆ brackets) {o : Char} {others t : List Char}
    (h : Clear opens others t) (opener : o ∈ opens) (free : o ∉ stops) :
    Clear opens stops (o :: t ++ [closerOf o]) := by
  have known : o = '(' ∨ o = '[' ∨ o = '<' := by simpa [brackets] using sub opener
  have notQuote : ¬(o = '"' ∨ o = '\'') := by
    rcases known with rfl | rfl | rfl <;> decide
  have opening : top.step opens o = .ok ⟨[o], .outside⟩ := by
    simp [Nesting.step, top, notQuote, opener]
  have inner : (⟨[o], .outside⟩ : Nesting).through opens stops t = some ⟨[o], .outside⟩ := by
    simpa [top] using through_deeper (by simp) h
  have closer : closerOf o ∈ [')', ']', '>'] ∧ closerOf o ∉ brackets ∧
      ¬(closerOf o = '"' ∨ closerOf o = '\'') := by
    rcases known with rfl | rfl | rfl <;> decide
  have counts : opens.any (closerOf · == closerOf o) = true :=
    List.any_eq_true.2 ⟨o, opener, by simp⟩
  have closing : (⟨[o], .outside⟩ : Nesting).step opens (closerOf o) = .ok .top := by
    have own : closerOf o ∉ opens := fun mem => closer.2.1 (sub mem)
    simp [Nesting.step, top, closer.2.2, own, counts, closer.1]
  have deep : (⟨[o], .outside⟩ : Nesting) ≠ .top := by simp [top]
  simp [Clear, through, free, opening, through_append, inner, deep, closing]

/-- A text in which each character leaves the top level is clear. -/
theorem clear_of_still {t : List Char} (still : ∀ c ∈ t, c ∉ stops ∧ top.step opens c = .ok .top) :
    Clear opens stops t := by
  unfold Clear
  induction t with
  | nil => rfl
  | cons c t ih =>
    obtain ⟨free, stays⟩ := still c (by simp)
    simp [through, free, stays, ih fun d mem => still d (by simp [mem])]

/-- A pair of square brackets is clear, whether they count or not. -/
theorem clear_dimension (sub : opens ⊆ brackets) (free : '[' ∉ stops ∧ ']' ∉ stops) :
    Clear opens stops ['[', ']'] := by
  by_cases counts : '[' ∈ opens
  · have inside : Clear opens [] [] := clear_nil
    exact inside.bracketed sub counts free.1
  · refine clear_of_still fun c mem => ?_
    have closes : opens.any (closerOf · == ']') = false := by
      rw [List.any_eq_false]
      intro o inOpens same
      have known : o = '(' ∨ o = '[' ∨ o = '<' := by simpa [brackets] using sub inOpens
      rcases known with rfl | rfl | rfl
      · revert same
        decide
      · exact counts inOpens
      · revert same
        decide
    have apart : ']' ∉ opens := fun mem => absurd (sub mem) (by decide)
    simp only [List.mem_cons, List.not_mem_nil, or_false] at mem
    rcases mem with rfl | rfl
    · exact ⟨free.1, by simp [step, top, counts]⟩
    · exact ⟨free.2, by simp [step, top, apart, closes]⟩

/-! ### Scans -/

theorem faultAtEnd?_eq_none {n : Nesting} : n.faultAtEnd? = none ↔ n = .top := by
  obtain ⟨stack, literal⟩ := n
  cases literal <;> cases stack <;> simp [faultAtEnd?, top]

/-- A scan goes on behind a character that does not stop it. -/
theorem scanFrom_cons_eq_ok_iff {n : Nesting} {c : Char} {cs piece rest : List Char}
    (goes : ¬(n = .top ∧ c ∈ stops)) :
    scanFrom opens stops n (c :: cs) = .ok (piece, rest) ↔ ∃ next more, n.step opens c = .ok next ∧
      scanFrom opens stops next cs = .ok (more, rest) ∧ piece = c :: more := by
  rw [scanFrom, if_neg goes]
  cases stepped : n.step opens c with
  | error fault => simp
  | ok next => cases found : scanFrom opens stops next cs <;> simp [found, Prod.ext_iff, eq_comm, and_comm]

/-- A scan stops behind a piece that leads to the top, at the end or in front of a separator. -/
theorem scanFrom_eq_ok_iff {n : Nesting} {cs piece rest : List Char} :
    scanFrom opens stops n cs = .ok (piece, rest) ↔
      cs = piece ++ rest ∧ n.through opens stops piece = some .top ∧ ∀ c ∈ rest.head?, c ∈ stops := by
  induction cs generalizing n piece with
  | nil =>
    simp only [scanFrom]
    constructor
    · intro h
      split at h
      · cases h
      · rename_i ended
        cases h
        exact ⟨rfl, by simp [faultAtEnd?_eq_none.1 ended], by simp⟩
    · rintro ⟨whole, walk, -⟩
      obtain ⟨rfl, rfl⟩ := List.append_eq_nil_iff.1 whole.symm
      have ended : n = .top := by simpa using walk
      rw [faultAtEnd?_eq_none.2 ended]
  | cons c cs ih =>
    by_cases stop : n = .top ∧ c ∈ stops
    · rw [scanFrom, if_pos stop]
      constructor
      · intro h
        cases h
        exact ⟨rfl, by simp [stop.1], by simpa using stop.2⟩
      · rintro ⟨whole, walk, -⟩
        cases piece with
        | nil => rw [List.nil_append] at whole; rw [whole]
        | cons d piece =>
          obtain ⟨rfl, -⟩ := List.cons.inj whole
          exact absurd stop (through_cons_eq_some_iff.1 walk).1
    · rw [scanFrom_cons_eq_ok_iff stop]
      constructor
      · rintro ⟨next, more, stepped, found, rfl⟩
        obtain ⟨rfl, walk, ends⟩ := ih.1 found
        exact ⟨rfl, through_cons_eq_some_iff.2 ⟨stop, next, stepped, walk⟩, ends⟩
      · rintro ⟨whole, walk, ends⟩
        cases piece with
        | nil =>
          obtain rfl : rest = c :: cs := whole.symm
          exact absurd ⟨by simpa using walk, ends c (by simp)⟩ stop
        | cons d piece =>
          obtain ⟨rfl, rfl⟩ := List.cons.inj whole
          obtain ⟨-, next, stepped, walk⟩ := through_cons_eq_some_iff.1 walk
          exact ⟨next, piece, stepped, ih.2 ⟨rfl, walk, ends⟩, rfl⟩

/-- A scan takes a clear text up to the end or the separator that follows. -/
theorem scanTo_eq_ok_iff {cs piece rest : List Char} :
    scanTo stops cs = .ok (piece, rest) ↔
      cs = piece ++ rest ∧ Clear brackets stops piece ∧ ∀ c ∈ rest.head?, c ∈ stops :=
  scanFrom_eq_ok_iff

/-! ### Segments -/

/-- The pieces are the first one and those behind its separator. -/
theorem segmentsFrom_eq {separator : Char} (n : Nesting) (cs : List Char) :
    segmentsFrom opens separator n cs =
      scanFrom opens [separator] n cs >>= fun found =>
        match found.2 with
        | [] => .ok [found.1]
        | _ :: rest => (segmentsFrom opens separator .top rest).map (found.1 :: ·) := by
  induction cs generalizing n with
  | nil =>
    simp only [segmentsFrom, scanFrom]
    cases n.faultAtEnd? <;> rfl
  | cons c cs ih =>
    simp only [segmentsFrom, scanFrom, List.mem_singleton]
    by_cases stop : n = .top ∧ c = separator
    · simp only [if_pos stop, ok_bind]
      cases segmentsFrom opens separator .top cs <;> rfl
    · simp only [if_neg stop]
      cases n.step opens c with
      | error fault => rfl
      | ok next =>
        simp only [ih next]
        cases scanFrom opens [separator] next cs with
        | error fault => rfl
        | ok found =>
          obtain ⟨piece, rest⟩ := found
          cases rest with
          | nil => rfl
          | cons d rest =>
            simp only [ok_bind]
            cases segmentsFrom opens separator .top rest <;> rfl

theorem segmentsFrom_of_clear {separator : Char} {n : Nesting} {first : List Char}
    {more : List (List Char)} (walk : n.through opens [separator] first = some .top)
    (clear : ∀ p ∈ more, Clear opens [separator] p) :
    segmentsFrom opens separator n (join [separator] (first :: more)) = .ok (first :: more) := by
  induction more generalizing n first with
  | nil =>
    have taken : scanFrom opens [separator] n first = .ok (first, []) :=
      scanFrom_eq_ok_iff.2 ⟨by simp, walk, by simp⟩
    rw [join_singleton, segmentsFrom_eq, taken]
    rfl
  | cons second more ih =>
    have later := ih (clear second (by simp)) fun p mem => clear p (by simp [mem])
    have taken : scanFrom opens [separator] n (join [separator] (first :: second :: more)) =
        .ok (first, separator :: join [separator] (second :: more)) :=
      scanFrom_eq_ok_iff.2 ⟨by simp [join_cons_cons], walk, by simp⟩
    rw [segmentsFrom_eq, taken]
    simp only [ok_bind, later, map_ok]

theorem clear_of_segmentsFrom {separator : Char} {n : Nesting} {cs : List Char}
    {pieces : List (List Char)} (h : segmentsFrom opens separator n cs = .ok pieces) :
    ∃ first more, pieces = first :: more ∧ n.through opens [separator] first = some .top ∧
      ∀ p ∈ more, Clear opens [separator] p := by
  induction length : cs.length using Nat.strong_induction_on generalizing n cs pieces with
  | _ size ih =>
    subst length
    rw [segmentsFrom_eq, bind_eq_ok_iff] at h
    obtain ⟨⟨piece, rest⟩, taken, h⟩ := h
    obtain ⟨rfl, walk, -⟩ := scanFrom_eq_ok_iff.1 taken
    cases rest with
    | nil =>
      cases h
      exact ⟨piece, [], rfl, walk, by simp⟩
    | cons d rest =>
      obtain ⟨others, later, rfl⟩ := map_eq_ok_iff.1 h
      obtain ⟨first, more, rfl, walk', clear⟩ := ih rest.length (by simp; omega) later rfl
      exact ⟨piece, first :: more, rfl, walk, List.forall_mem_cons.2 ⟨walk', clear⟩⟩

/-- The segments of a text are clear pieces, at least one, with the separator between any two. -/
theorem segments_eq_ok_iff {separator : Char} {cs : List Char} {pieces : List (List Char)} :
    segments opens separator cs = .ok pieces ↔
      pieces ≠ [] ∧ cs = join [separator] pieces ∧ ∀ p ∈ pieces, Clear opens [separator] p := by
  constructor
  · intro h
    obtain ⟨first, more, rfl, walk, clear⟩ := clear_of_segmentsFrom h
    refine ⟨by simp, (join_segments h).symm, fun p mem => ?_⟩
    rcases List.mem_cons.1 mem with rfl | mem
    · exact walk
    · exact clear p mem
  · rintro ⟨filled, rfl, clear⟩
    cases pieces with
    | nil => exact absurd rfl filled
    | cons first more =>
      exact segmentsFrom_of_clear (clear first (by simp)) fun p mem => clear p (by simp [mem])

/-- A text in which nothing is left open is cut at any separator. -/
theorem exists_segmentsFrom (sub : opens ⊆ brackets) {separator : Char} (plain : separator ∉ marks) {n : Nesting}
    {cs : List Char} (walk : n.through opens [] cs = some .top) :
    ∃ pieces, segmentsFrom opens separator n cs = .ok pieces := by
  induction cs generalizing n with
  | nil =>
    have ended : n = .top := by simpa using walk
    exact ⟨[[]], by simp [segmentsFrom, faultAtEnd?_eq_none.2 ended]⟩
  | cons c cs ih =>
    obtain ⟨-, next, stepped, later⟩ := through_cons_eq_some_iff.1 walk
    obtain ⟨pieces, cut⟩ := ih later
    simp only [segmentsFrom]
    split
    · rename_i stop
      obtain ⟨rfl, rfl⟩ := stop
      rw [step_of_notMem_marks sub rfl plain] at stepped
      obtain rfl := Except.ok.inj stepped
      exact ⟨_, by rw [cut]⟩
    · simp only [stepped, cut]
      obtain ⟨first, more, rfl, -⟩ := clear_of_segmentsFrom cut
      exact ⟨_, rfl⟩

theorem Clear.exists_segments (sub : opens ⊆ brackets) {separator : Char} (plain : separator ∉ marks) {t : List Char}
    (h : Clear opens [] t) : ∃ pieces, segments opens separator t = .ok pieces :=
  exists_segmentsFrom sub plain h

/-- Joined pieces are as clear as each of them, if the separator is not one of the others. -/
theorem clear_join (sub : opens ⊆ brackets) {separator : Char} (plain : separator ∉ marks)
    (free : separator ∉ stops) {pieces : List (List Char)}
    (clear : ∀ p ∈ pieces, Clear opens stops p) : Clear opens stops (join [separator] pieces) := by
  induction pieces with
  | nil => rfl
  | cons first more ih =>
    have head := clear first (by simp)
    cases more with
    | nil => simpa using head
    | cons second more =>
      rw [join_cons_cons]
      have middle : Clear opens stops [separator] := clear_of_plain sub (by simp [plain, free])
      exact (head.append middle).append (ih fun p mem => clear p (by simp [mem]))

/-- The segments of a clear text are clear of the same characters. -/
theorem Clear.of_join (sub : opens ⊆ brackets) {separator : Char} (plain : separator ∉ marks)
    {others : List Char} {pieces : List (List Char)}
    (h : Clear opens stops (join [separator] pieces))
    (clear : ∀ p ∈ pieces, Clear opens others p) : ∀ p ∈ pieces, Clear opens stops p := by
  induction pieces with
  | nil => simp
  | cons first more ih =>
    intro p mem
    cases more with
    | nil =>
      obtain rfl : p = first := by simpa using mem
      simpa using h
    | cons second more =>
      rw [join_cons_cons, List.append_assoc] at h
      have balanced : Clear opens [] [separator] := clear_of_plain sub (by simp [plain])
      rcases List.mem_cons.1 mem with rfl | mem
      · exact h.of_append_left (clear p (by simp))
      · have rest := (h.of_append_right (clear first (by simp))).of_append_right balanced
        exact ih rest (fun q mem => clear q (by simp [mem])) p mem

end ApiSurface.Text
