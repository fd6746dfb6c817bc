import ApiSurface.Literal.Escape
import ApiSurface.Proofs.Text.Nesting
import ApiSurface.Proofs.Text.Clear

/-!
Quoted literals and closing brackets in front of any rest. Main statements: what was cut off once is cut
off again whatever follows it (`throughQuote?_replay`, `throughClose_replay`), an escaped text ends at its
quote (`throughQuote?_escape`), and a literal is clear of everything (`clear_quoted`).
-/

namespace ApiSurface.Text

open Nesting

variable {opens stops : List Char}

/-! ### Literals -/

theorem throughQuote?_slash (quote c : Char) (cs : List Char) :
    throughQuote? quote ('\\' :: c :: cs) =
      (throughQuote? quote cs).map fun found => ('\\' :: c :: found.1, found.2) := rfl

theorem throughQuote?_quote {quote : Char} (noSlash : quote ≠ '\\') (cs : List Char) :
    throughQuote? quote (quote :: cs) = some ([], cs) := by
  rw [throughQuote?]
  · simp [noSlash]
  · exact fun _ _ same _ => noSlash same

theorem throughQuote?_cons {quote c : Char} (noSlash : c ≠ '\\') (differ : c ≠ quote) (cs : List Char) :
    throughQuote? quote (c :: cs) =
      (throughQuote? quote cs).map fun found => (c :: found.1, found.2) := by
  rw [throughQuote?]
  · simp [noSlash, differ]
  · exact fun _ _ same _ => noSlash same

/-- The inside of a literal is cut off again whatever follows the quote. -/
theorem throughQuote?_replay {quote : Char} {cs inside rest : List Char}
    (h : throughQuote? quote cs = some (inside, rest)) (others : List Char) :
    throughQuote? quote (inside ++ quote :: others) = some (inside, others) := by
  fun_induction throughQuote? quote cs generalizing inside with
  | case1 => cases h
  | case2 c cs ih =>
    simp only [Option.map_eq_some_iff, Prod.exists, Prod.mk.injEq] at h
    obtain ⟨a, b, found, rfl, rfl⟩ := h
    simp [throughQuote?_slash, ih found]
  | case3 => cases h
  | case4 cs noPair noSlash =>
    cases h
    exact throughQuote?_quote noSlash others
  | case5 c cs noPair noSlash differ ih =>
    simp only [Option.map_eq_some_iff, Prod.exists, Prod.mk.injEq] at h
    obtain ⟨a, b, found, rfl, rfl⟩ := h
    rw [List.cons_append, throughQuote?_cons noSlash differ, ih found]
    rfl

/-- Inside a literal no bracket and no separator counts. -/
theorem through_inside {quote : Char} {cs inside rest : List Char} (stack : List Char)
    (h : throughQuote? quote cs = some (inside, rest)) :
    (⟨stack, .inside quote⟩ : Nesting).through opens stops inside = some ⟨stack, .inside quote⟩ := by
  have deep (l : LiteralState) (filled : l ≠ .outside) : (⟨stack, l⟩ : Nesting) ≠ .top := by
    simp [top, filled]
  fun_induction throughQuote? quote cs generalizing inside with
  | case1 => cases h
  | case2 c cs ih =>
    simp only [Option.map_eq_some_iff, Prod.exists, Prod.mk.injEq] at h
    obtain ⟨a, b, found, rfl, rfl⟩ := h
    simp [through, deep, Nesting.step, ih found]
  | case3 => cases h
  | case4 =>
    cases h
    rfl
  | case5 c cs _ noSlash differ ih =>
    simp only [Option.map_eq_some_iff, Prod.exists, Prod.mk.injEq] at h
    obtain ⟨a, b, found, rfl, rfl⟩ := h
    simp [through, deep, Nesting.step, noSlash, differ, ih found]

/-- A literal is clear of all separators but its quote. -/
theorem clear_quoted {quote : Char} (q : quote = '"' ∨ quote = '\'') {cs inside rest : List Char}
    (h : throughQuote? quote cs = some (inside, rest)) (free : quote ∉ stops) :
    Clear opens stops (quote :: inside ++ [quote]) := by
  have noSlash : quote ≠ '\\' := by rcases q with rfl | rfl <;> decide
  have opening : top.step opens quote = .ok ⟨[], .inside quote⟩ := by
    simp [Nesting.step, top, q]
  have inner : (⟨[], .inside quote⟩ : Nesting).through opens stops inside = some ⟨[], .inside quote⟩ :=
    through_inside [] h
  have closing : (⟨[], .inside quote⟩ : Nesting).step opens quote = .ok .top := by
    simp [Nesting.step, noSlash, top]
  have deep : (⟨[], .inside quote⟩ : Nesting) ≠ .top := by simp [top]
  simp [Clear, through, free, opening, through_append, inner, closing]

/-! ### Escaped texts -/

theorem throughQuote?_plain_append {quote : Char} {a : List Char}
    (plain : ∀ c ∈ a, c ≠ '\\' ∧ c ≠ quote) (rest : List Char) :
    throughQuote? quote (a ++ rest) =
      (throughQuote? quote rest).map fun found => (a ++ found.1, found.2) := by
  induction a with
  | nil => simp
  | cons c a ih =>
    have ⟨noSlash, differ⟩ := plain c (by simp)
    rw [List.cons_append, throughQuote?_cons noSlash differ, ih fun d mem => plain d (by simp [mem])]
    cases throughQuote? quote rest <;> rfl

/-- The digits of a code unit are printable, and neither a quote nor a backslash. -/
theorem digit_plain (k : Nat) :
    Literal.isPlain (digit (k % 16)) ∧ digit (k % 16) ≠ '\\' ∧ digit (k % 16) ≠ '"' ∧
      digit (k % 16) ≠ '\'' := by
  have all : ∀ e ∈ List.range 16, Literal.isPlain (digit e) ∧ digit e ≠ '\\' ∧ digit e ≠ '"' ∧
      digit e ≠ '\'' := by
    decide
  exact all _ (List.mem_range.mpr (Nat.mod_lt _ (by decide)))

theorem throughQuote?_unitEscapes {quote : Char} (q : quote = '"' ∨ quote = '\'') (us : List Nat)
    (rest : List Char) :
    throughQuote? quote (us.flatMap Literal.unitEscape ++ rest) =
      (throughQuote? quote rest).map fun found => (us.flatMap Literal.unitEscape ++ found.1, found.2) := by
  induction us with
  | nil => simp
  | cons u us ih =>
    have digits : ∀ c ∈ fourHex u, c ≠ '\\' ∧ c ≠ quote := by
      intro c mem
      simp only [fourHex, List.mem_cons, List.not_mem_nil, or_false] at mem
      rcases q with rfl | rfl <;> rcases mem with rfl | rfl | rfl | rfl <;>
        exact ⟨(digit_plain _).2.1, by first | exact (digit_plain _).2.2.1 | exact (digit_plain _).2.2.2⟩
    rw [List.flatMap_cons, List.append_assoc, Literal.unitEscape, List.cons_append, List.cons_append,
      throughQuote?_slash, throughQuote?_plain_append digits, ih]
    cases throughQuote? quote rest <;> simp

/-- A character of an escaped text is passed together with what belongs to it. -/
theorem throughQuote?_escapeChar {quote : Char} (q : quote = '"' ∨ quote = '\'') (c : Char)
    (rest : List Char) :
    throughQuote? quote (Literal.escapeChar quote c ++ rest) =
      (throughQuote? quote rest).map fun found => (Literal.escapeChar quote c ++ found.1, found.2) := by
  unfold Literal.escapeChar
  split_ifs with h1 h2 h3 h4 h5 h6 h7
  all_goals try exact throughQuote?_slash quote _ rest
  · exact throughQuote?_cons h1 h7 rest
  · exact throughQuote?_unitEscapes q _ rest

/-- An escaped text ends at its quote. -/
theorem throughQuote?_escape {quote : Char} (q : quote = '"' ∨ quote = '\'') (t rest : List Char) :
    throughQuote? quote (Literal.escape quote t ++ quote :: rest) =
      some (Literal.escape quote t, rest) := by
  have noSlash : quote ≠ '\\' := by rcases q with rfl | rfl <;> decide
  induction t with
  | nil => cases rest <;> simp [Literal.escape, throughQuote?, noSlash]
  | cons c t ih =>
    have split : Literal.escape quote (c :: t) = Literal.escapeChar quote c ++ Literal.escape quote t := by
      simp [Literal.escape]
    rw [split, List.append_assoc, throughQuote?_escapeChar q, ih]
    rfl

/-! ### Closing brackets -/

theorem closeFrom_replay {wanted : Char} {n : Nesting} {cs piece rest : List Char}
    (h : closeFrom wanted n cs = .ok (piece, rest)) (others : List Char) :
    closeFrom wanted n (piece ++ others) = .ok (piece, others) := by
  induction cs generalizing n piece with
  | nil =>
    simp only [closeFrom] at h
    split at h <;> cases h
  | cons c cs ih =>
    simp only [closeFrom] at h
    split at h
    · cases h
    · rename_i next stepped
      split at h
      · rename_i closed
        cases h
        simp [closeFrom, stepped, closed]
      · rename_i stillOpen
        split at h
        · cases h
        · rename_i found
          cases h
          simp [closeFrom, stepped, stillOpen, ih found]

/-- What ends at a closing bracket is cut off again whatever follows it. -/
theorem throughClose_replay {bracket : Char} {cs piece rest : List Char}
    (h : throughClose bracket cs = .ok (piece, rest)) (others : List Char) :
    throughClose bracket (piece ++ others) = .ok (piece, others) :=
  closeFrom_replay h others

end ApiSurface.Text
