import ApiSurface.Text.Numeral
import ApiSurface.Text.Unprintable

/-!
Text quoted for a message: between double quotes, with quotes, backslashes and characters that have no
printed form escaped. An apostrophe stands for itself. Main statement: a text of printable ASCII
characters without quotes and backslashes is shown as it is (`quoteChars_of_plain`).
-/

namespace ApiSurface.Text

/-- How one character is shown inside a quoted text. -/
def quoteChar (c : Char) : List Char :=
  if c = '\x00' then ['\\', '0']
  else if c = '\t' then ['\\', 't']
  else if c = '\n' then ['\\', 'n']
  else if c = '\r' then ['\\', 'r']
  else if c = '"' then ['\\', '"']
  else if c = '\\' then ['\\', '\\']
  else if isUnprintable c then ['\\', 'u', '\x7b'] ++ hexadecimal c.toNat ++ ['\x7d']
  else [c]

/-- The inside of a quoted text. -/
def quoteChars (cs : List Char) : List Char := cs.flatMap quoteChar

/-- The text as a message shows it. -/
def quoted (s : String) : String :=
  String.ofList ('"' :: quoteChars s.toList ++ ['"'])

/-! ### Laws -/

/-- Printable ASCII other than quote and backslash is shown as it is. -/
theorem quoteChars_of_plain {cs : List Char}
    (h : ∀ c ∈ cs, 0x20 ≤ c.toNat ∧ c.toNat < 0x7F ∧ c ≠ '"' ∧ c ≠ '\\') : quoteChars cs = cs := by
  induction cs with
  | nil => rfl
  | cons c cs ih =>
    obtain ⟨low, high, noQuote, noBackslash⟩ := h c (by simp)
    have apart (d : Char) (small : d.toNat < 0x20) : c ≠ d := by rintro rfl; omega
    have here : quoteChar c = [c] := by
      simp [quoteChar, noQuote, noBackslash, apart _ (show '\x00'.toNat < 0x20 by decide),
        apart _ (show '\t'.toNat < 0x20 by decide), apart _ (show '\n'.toNat < 0x20 by decide),
        apart _ (show '\r'.toNat < 0x20 by decide), isUnprintable_eq_false_of_ascii low high]
    have rest : quoteChars cs = cs := ih fun d mem => h d (by simp [mem])
    simp [quoteChars, here]
    exact rest

end ApiSurface.Text
