import ApiSurface.Literal.Constant
import ApiSurface.Proofs.Annotated.Accepted
import ApiSurface.Proofs.Literal.EscapeGrammar
import ApiSurface.Proofs.Text.SingleLine

/-!
Constants in the spelling of the two oldest formats. Main statement: a constant that is a literal of its
type is read back from its old spelling (`decodeConstant_encodeConstant`), which stays on one line
(`IsLiteralOf.singleLine_encodeConstant`).
-/

namespace ApiSurface.Literal

open ApiSurface.Text

/-- A constant as a field of this type has it: strings and characters are literals of their own, of
anything else nothing is known. -/
structure IsLiteralOf (type constant : List Char) : Prop where
  string : type = stringType → ∃ text, constant = stringLiteral text
  char : type = charType → ∃ c : Char, c.toNat < 0x10000 ∧ constant = charLiteral c

/-! ### Quotes -/

theorem unquote?_quoted (quote : Char) (cs : List Char) : unquote? quote (quote :: cs ++ [quote]) = some cs := by
  have lead : afterLead? [quote] (quote :: cs ++ [quote]) = some (cs ++ [quote]) :=
    afterLead?_append [quote] (cs ++ [quote])
  rw [unquote?, lead, Option.bind_some, beforeTail?_append]

theorem unescape_unquote?_stringLiteral (text : List Char) :
    (unquote? '"' (stringLiteral text)).map unescape = some (.ok text) := by
  rw [stringLiteral, unquote?_quoted, Option.map_some, unescape_escape (.inl rfl)]

theorem unescape_unquote?_charLiteral (c : Char) :
    (unquote? '\'' (charLiteral c)).map unescape = some (.ok [c]) := by
  rw [charLiteral, unquote?_quoted, Option.map_some, unescape_escape (.inr rfl)]

/-! ### Strings by number -/

theorem escapedUnits_numericEscapeChar (c : Char) (cs : List Char) :
    escapedUnits (numericEscapeChar c ++ cs) = (escapedUnits cs).map (charUnits c ++ ·) := by
  have byNumber := escapedUnits_numericEscape (charUnits c) (charUnits_lt c) cs
  unfold numericEscapeChar
  split
  · exact byNumber
  · rename_i other
    split
    · exact escapedUnits_cons (fun same => other (.inr same)) cs
    · exact byNumber

/-- A text in which quotes, backslashes and what is not printable stand by number is read back. -/
theorem unescape_numericEscapeChar (text : List Char) :
    unescape (text.flatMap numericEscapeChar) = .ok text := by
  have given : escapedUnits (text.flatMap numericEscapeChar) = .ok (units text) := by
    induction text with
    | nil =>
      rw [List.flatMap_nil, escapedUnits]
      rfl
    | cons c text ih =>
      rw [List.flatMap_cons, escapedUnits_numericEscapeChar, ih]
      simp [units, Except.map]
  simp [unescape, given, ofUnits?_units]

theorem isPlain_of_mem_numericEscapeChar {c d : Char} (mem : d ∈ numericEscapeChar c) : isPlain d := by
  unfold numericEscapeChar at mem
  split at mem
  · exact isPlain_of_mem_numericEscape mem
  · split at mem
    · rename_i plain
      obtain rfl : d = c := by simpa using mem
      exact plain
    · exact isPlain_of_mem_numericEscape mem

/-! ### Constants -/

theorem stringType_ne_charType : charType ≠ stringType := by decide

/-- A decimal number has no blanks around it. -/
theorem trim_decimal (n : Nat) : trim (decimal n) = decimal n := by
  have solid : ∀ c ∈ decimal n, isBlank c = false := by
    intro c mem
    have digit := Annotated.isDigit_of_mem_decimal mem
    have bounds : 0x30 ≤ c.toNat ∧ c.toNat ≤ 0x39 := by
      simp only [Char.isDigit, Bool.and_eq_true, decide_eq_true_eq] at digit
      exact ⟨UInt32.le_iff_toNat_le.1 digit.1, UInt32.le_iff_toNat_le.1 digit.2⟩
    simp only [isBlank, Bool.or_eq_false_iff, Bool.and_eq_false_imp, decide_eq_true_eq, decide_eq_false_iff_not,
      beq_eq_false_iff_ne]
    omega
  exact Trimmed.trim_eq ⟨fun c mem => solid c (List.mem_of_mem_head? mem),
    fun c mem => solid c (List.mem_of_getLast? mem)⟩

/-- A character below 0x10000 is its code unit. -/
theorem head?_units_charUnits {c : Char} (small : c.toNat < 0x10000) : (units [c]).head? = some c.toNat := by
  simp [units, charUnits, small]

theorem ofUnits?_toNat {c : Char} (small : c.toNat < 0x10000) : ofUnits? [c.toNat] = some [c] := by
  have back := ofUnits?_units [c]
  simpa [units, charUnits, small] using back

/-- A literal of its type is read back from its old spelling. -/
theorem decodeConstant_encodeConstant {type constant : List Char} (h : IsLiteralOf type constant) :
    decodeConstant type (encodeConstant type constant) = .ok constant := by
  by_cases string : type = stringType
  · obtain ⟨text, rfl⟩ := h.string string
    simp [decodeConstant, encodeConstant, string, unescape_unquote?_stringLiteral, unescape_numericEscapeChar]
  · by_cases char : type = charType
    · obtain ⟨c, small, rfl⟩ := h.char char
      have number : readDecimal? 0xFFFFFFFF (decimal c.toNat) = some c.toNat := readDecimal?_decimal (by omega)
      have unit : c.toNat % 0x10000 = c.toNat := Nat.mod_eq_of_lt small
      simp [decodeConstant, encodeConstant, char, stringType_ne_charType, unescape_unquote?_charLiteral,
        head?_units_charUnits small, trim_decimal, number, unit, ofUnits?_toNat small]
    · simp [decodeConstant, encodeConstant, string, char]

/-- The old spelling of a literal stays on one line. -/
theorem IsLiteralOf.singleLine_encodeConstant {type constant : List Char} (h : IsLiteralOf type constant)
    (single : SingleLine constant) : SingleLine (encodeConstant type constant) := by
  by_cases string : type = stringType
  · obtain ⟨text, rfl⟩ := h.string string
    simp only [encodeConstant, string, if_true, unescape_unquote?_stringLiteral]
    exact .of_isPlain fun d mem => by
      obtain ⟨c, -, inside⟩ := List.mem_flatMap.1 mem
      exact isPlain_of_mem_numericEscapeChar inside
  · by_cases char : type = charType
    · obtain ⟨c, small, rfl⟩ := h.char char
      simpa [encodeConstant, char, stringType_ne_charType, unescape_unquote?_charLiteral,
        head?_units_charUnits small] using Annotated.singleLine_decimal c.toNat
    · simpa [encodeConstant, string, char] using single

/-! ### Between quotes -/

/-- A literal of its type, with quotes and backslashes in it only if it is a string or a character. -/
structure IsPlainLiteralOf (type constant : List Char) : Prop extends IsLiteralOf type constant where
  plain : type ≠ stringType → type ≠ charType → ∀ c ∈ constant, c ≠ '\\' ∧ c ≠ '"'

theorem throughQuote?_numericEscapeChar (c : Char) (rest : List Char) :
    throughQuote? '"' (numericEscapeChar c ++ rest) =
      (throughQuote? '"' rest).map fun found => (numericEscapeChar c ++ found.1, found.2) := by
  unfold numericEscapeChar
  split
  · exact throughQuote?_unitEscapes (.inl rfl) _ rest
  · rename_i other
    split
    · exact throughQuote?_cons (fun same => other (.inr same)) (fun same => other (.inl same)) rest
    · exact throughQuote?_unitEscapes (.inl rfl) _ rest

theorem throughQuote?_flatMap_numericEscapeChar (text rest : List Char) :
    throughQuote? '"' (text.flatMap numericEscapeChar ++ '"' :: rest) =
      some (text.flatMap numericEscapeChar, rest) := by
  induction text with
  | nil => exact throughQuote?_quote (by decide) rest
  | cons c text ih =>
    rw [List.flatMap_cons, List.append_assoc, throughQuote?_numericEscapeChar, ih]
    rfl

/-- The old spelling of a literal ends at the quote behind it. -/
theorem IsPlainLiteralOf.throughQuote? {type constant : List Char} (h : IsPlainLiteralOf type constant)
    (rest : List Char) :
    throughQuote? '"' (encodeConstant type constant ++ '"' :: rest) = some (encodeConstant type constant, rest) := by
  have plain {t : List Char} (each : ∀ c ∈ t, c ≠ '\\' ∧ c ≠ '"') :
      Text.throughQuote? '"' (t ++ '"' :: rest) = some (t, rest) := by
    simp [throughQuote?_plain_append each, throughQuote?_quote (by decide : '"' ≠ '\\') rest]
  by_cases string : type = stringType
  · obtain ⟨text, rfl⟩ := h.string string
    simpa [encodeConstant, string, unescape_unquote?_stringLiteral] using
      throughQuote?_flatMap_numericEscapeChar text rest
  · by_cases char : type = charType
    · obtain ⟨c, small, rfl⟩ := h.char char
      have digits : ∀ d ∈ decimal c.toNat, d ≠ '\\' ∧ d ≠ '"' := by
        intro d mem
        have digit := Annotated.isDigit_of_mem_decimal mem
        constructor <;> rintro rfl <;> revert digit <;> decide
      simpa [encodeConstant, char, stringType_ne_charType, unescape_unquote?_charLiteral,
        head?_units_charUnits small] using plain digits
    · simpa [encodeConstant, string, char] using plain (h.plain string char)

end ApiSurface.Literal
