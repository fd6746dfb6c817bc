import Mathlib
import ApiSurface.Text.Quoted

/-!
Texts that say themselves where they end. When values are written like that, one after the other, the
whole text tells the values apart. Main statements: texts between quotes are of this kind
(`delimited_quoted`), and so are lists of them between brackets (`delimited_listed`).
-/

namespace ApiSurface.Text

variable {α β : Type}

/-- What is written for a value says where it ends. -/
def Delimited (write : α → List Char) : Prop :=
  ∀ a b r s, write a ++ r = write b ++ s → a = b ∧ r = s

theorem Delimited.injective {write : α → List Char} (h : Delimited write) : Function.Injective write := by
  intro a b same
  exact (h a b [] [] (by simp [same])).1

/-! ### Characters -/

/-- Numbers with the same digits are the same. -/
theorem hexadecimal_injective : Function.Injective hexadecimal := by
  intro m n same
  have back := @readDigits?_toDigits 16 (by decide) (by decide)
  rw [hexadecimal, hexadecimal] at same
  exact Option.some.inj ((back m).symm.trans (same ▸ back n))

theorem digitValue?_of_readDigits? {base value n : Nat} {cs : List Char}
    (h : readDigits? base value cs = some n) : ∀ c ∈ cs, (digitValue? c).isSome := by
  induction cs generalizing value with
  | nil => simp
  | cons c cs ih =>
    rw [readDigits?] at h
    split at h
    · rename_i d found
      split at h
      · intro e mem
        rcases List.mem_cons.1 mem with rfl | mem
        · simp [found]
        · exact ih h e mem
      · cases h
    · cases h

theorem brace_notMem_hexadecimal (n : Nat) : '\x7d' ∉ hexadecimal n := by
  intro mem
  have value := digitValue?_of_readDigits?
    (@readDigits?_toDigits 16 (by decide) (by decide) n) '\x7d' mem
  exact absurd value (by decide)

theorem delimited_braced : Delimited fun n => hexadecimal n ++ ['\x7d'] := by
  intro m n r s same
  simp only [List.append_assoc, List.cons_append, List.nil_append] at same
  have cut (k : Nat) (t : List Char) :
      (hexadecimal k ++ '\x7d' :: t).takeWhile (· != '\x7d') = hexadecimal k := by
    rw [List.takeWhile_append_of_pos]
    · simp
    · intro c mem
      have other : c ≠ '\x7d' := fun brace => brace_notMem_hexadecimal k (brace ▸ mem)
      simpa using other
  have digits : hexadecimal m = hexadecimal n := by rw [← cut m r, same, cut n s]
  rw [digits, List.append_cancel_left_eq] at same
  exact ⟨hexadecimal_injective digits, (List.cons.inj same).2⟩

/-- The characters that are shown as a backslash and one more character. -/
def shortEscapes : List (Char × Char) :=
  [('\x00', '0'), ('\t', 't'), ('\n', 'n'), ('\r', 'r'), ('"', '"'), ('\\', '\\')]

/-- A character is shown by a short escape, by its number or as it is. -/
theorem quoteChar_cases (c : Char) :
    (∃ e, (c, e) ∈ shortEscapes ∧ quoteChar c = ['\\', e]) ∨
    quoteChar c = '\\' :: 'u' :: '\x7b' :: (hexadecimal c.toNat ++ ['\x7d']) ∨
    (c ≠ '\\' ∧ c ≠ '"' ∧ quoteChar c = [c]) := by
  unfold quoteChar
  split_ifs <;> simp_all [shortEscapes]

/-- No character is shown as a quote. -/
theorem quoteChar_head (c : Char) (r s : List Char) : quoteChar c ++ r ≠ '"' :: s := by
  obtain ⟨e, -, shown⟩ | shown | ⟨-, noQuote, shown⟩ := quoteChar_cases c <;> simp [shown]
  intro quote
  exact absurd quote noQuote

/-- Characters that are shown one after the other can be told apart. -/
theorem delimited_quoteChar : Delimited quoteChar := by
  intro a b r s same
  have noNumber : ∀ c, (c, 'u') ∉ shortEscapes := by simp [shortEscapes]
  have oneEscape : ∀ p ∈ shortEscapes, ∀ q ∈ shortEscapes, p.2 = q.2 → p.1 = q.1 := by decide
  obtain ⟨e, inShort, shown⟩ | shown | ⟨noBackslash, -, shown⟩ := quoteChar_cases a <;>
    obtain ⟨f, inShort', shown'⟩ | shown' | ⟨noBackslash', -, shown'⟩ := quoteChar_cases b <;>
    simp only [shown, shown', List.cons_append, List.nil_append, List.cons.injEq, true_and] at same
  -- both are shown by a short escape
  · exact ⟨oneEscape _ inShort _ inShort' same.1, same.2⟩
  · exact absurd (same.1 ▸ inShort) (noNumber a)
  · exact absurd same.1.symm noBackslash'
  · exact absurd (same.1 ▸ inShort') (noNumber b)
  -- both by their numbers
  · obtain ⟨number, rest⟩ := delimited_braced a.toNat b.toNat r s same
    exact ⟨Char.toNat_inj.1 number, rest⟩
  · exact absurd same.1.symm noBackslash'
  · exact absurd same.1 noBackslash
  · exact absurd same.1 noBackslash
  · exact same

/-! ### Quoted texts -/

theorem delimited_quoteChars : Delimited fun cs => quoteChars cs ++ ['"'] := by
  intro as bs r s same
  simp only [List.append_assoc, List.cons_append, List.nil_append] at same
  induction as generalizing bs with
  | nil =>
    cases bs with
    | nil => simpa [quoteChars] using same
    | cons b bs => exact absurd same.symm (by simpa [quoteChars] using quoteChar_head b _ r)
  | cons a as ih =>
    cases bs with
    | nil => exact absurd same (by simpa [quoteChars] using quoteChar_head a _ s)
    | cons b bs =>
      simp only [quoteChars, List.flatMap_cons, List.append_assoc] at same ih
      obtain ⟨rfl, rest⟩ := delimited_quoteChar a b _ _ same
      obtain ⟨same, rest⟩ := ih bs rest
      exact ⟨by rw [same], rest⟩

/-- A quoted text says where it ends. -/
theorem delimited_quoted : Delimited fun s => (quoted s).toList := by
  intro a b r s same
  simp only [quoted, String.toList_ofList, List.cons_append, List.cons.injEq, true_and] at same
  obtain ⟨chars, rest⟩ := delimited_quoteChars a.toList b.toList r s same
  exact ⟨String.toList_inj.1 chars, rest⟩

/-! ### Texts in turn -/

/-- Texts with commas between them and a bracket behind them. -/
def listed (write : α → List Char) (as : List α) : List Char :=
  [',', ' '].intercalate (as.map write) ++ [']']

/-- What comes behind one of these texts. -/
theorem listed_cons (write : α → List Char) (a : α) (as : List α) :
    listed write (a :: as) = write a ++ if as = [] then [']'] else ',' :: ' ' :: listed write as := by
  cases as <;> simp [listed, List.intercalate_cons_cons]

/-- Texts that say where they end and do not begin with a bracket make up lists that say where they end. -/
theorem delimited_listed {write : α → List Char} (h : Delimited write)
    (lead : ∀ a r s, write a ++ r ≠ ']' :: s) : Delimited (listed write) := by
  have none (t : List Char) : listed write [] ++ t = ']' :: t := rfl
  intro as bs r s same
  induction as generalizing bs with
  | nil =>
    cases bs with
    | nil => exact ⟨rfl, by simpa [none] using same⟩
    | cons b bs =>
      rw [none, listed_cons, List.append_assoc] at same
      exact absurd same.symm (lead b _ r)
  | cons a as ih =>
    cases bs with
    | nil =>
      rw [none, listed_cons, List.append_assoc] at same
      exact absurd same (lead a _ s)
    | cons b bs =>
      rw [listed_cons, listed_cons, List.append_assoc, List.append_assoc] at same
      obtain ⟨rfl, rest⟩ := h a b _ _ same
      split_ifs at rest with empty empty' empty'
      · subst empty empty'
        simpa using rest
      · simp at rest
      · simp at rest
      · simp only [List.cons_append, List.cons.injEq, true_and] at rest
        obtain ⟨same, rest⟩ := ih bs rest
        exact ⟨by rw [same], rest⟩

end ApiSurface.Text
