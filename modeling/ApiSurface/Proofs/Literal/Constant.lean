import ApiSurface.ClassFile.Uses
import ApiSurface.Proofs.Annotated.Accepted
import ApiSurface.Proofs.Text.Numeral

/-!
The constants of class files as texts. Numbers and truth values are words of letters, digits, dots and signs;
strings and characters are escaped. Main statements: a word and a character are given back by an annotation
line (`SoundLiteral.of_word`, `SoundLiteral.charLiteral`), and the constant of a field stays on one line
(`singleLine_constantText`).
-/

namespace ApiSurface

open ApiSurface.Text

/-! ### Words -/

/-- The characters of numbers and truth values. -/
def isWordChar (c : Char) : Bool := c.isAlphanum || c == '.' || c == '-'

/-- A number or a truth value as it is written. -/
structure IsWord (t : List Char) : Prop where
  filled : t ≠ []
  chars : ∀ c ∈ t, isWordChar c

instance (t : List Char) : Decidable (IsWord t) :=
  decidable_of_iff (t ≠ [] ∧ ∀ c ∈ t, isWordChar c) ⟨fun h => ⟨h.1, h.2⟩, fun h => ⟨h.filled, h.chars⟩⟩

theorem IsWord.append {a b : List Char} (first : IsWord a) (later : ∀ c ∈ b, isWordChar c) : IsWord (a ++ b) :=
  ⟨by simp [first.filled], fun c mem => (List.mem_append.1 mem).elim (first.chars c) (later c)⟩

theorem IsWord.append_left {a b : List Char} (first : ∀ c ∈ a, isWordChar c) (later : IsWord b) : IsWord (a ++ b) :=
  ⟨by simp [later.filled], fun c mem => (List.mem_append.1 mem).elim (first c) (later.chars c)⟩

theorem IsWord.notMem {t : List Char} (h : IsWord t) {c : Char} (other : isWordChar c = false) : c ∉ t := by
  intro mem
  rw [h.chars c mem] at other
  cases other

/-- The characters of words have codes between those of the hyphen and of the last small letter. -/
theorem range_of_isWordChar {c : Char} (h : isWordChar c) : 0x2d ≤ c.toNat ∧ c.toNat ≤ 0x7a := by
  simp only [isWordChar, Char.isAlphanum, Char.isAlpha, Char.isUpper, Char.isLower, Char.isDigit, Bool.or_eq_true,
    Bool.and_eq_true, decide_eq_true_eq, beq_iff_eq, ge_iff_le, UInt32.le_iff_toNat_le] at h
  have code : c.val.toNat = c.toNat := rfl
  rcases h with (((⟨low, high⟩ | ⟨low, high⟩) | ⟨low, high⟩) | rfl) | rfl
  · exact ⟨by rw [← code]; exact le_trans (by decide) low, by rw [← code]; exact le_trans high (by decide)⟩
  · exact ⟨by rw [← code]; exact le_trans (by decide) low, by rw [← code]; exact le_trans high (by decide)⟩
  · exact ⟨by rw [← code]; exact le_trans (by decide) low, by rw [← code]; exact le_trans high (by decide)⟩
  · decide
  · decide

theorem isBlank_of_isWordChar {c : Char} (h : isWordChar c) : isBlank c = false := by
  have range := range_of_isWordChar h
  simp only [isBlank, Bool.or_eq_false_iff, Bool.and_eq_false_imp, decide_eq_true_eq, decide_eq_false_iff_not,
    beq_eq_false_iff_ne]
  omega

theorem IsWord.singleLine {t : List Char} (h : IsWord t) : SingleLine t := fun c mem =>
  ⟨fun same => h.notMem (c := '\n') (by decide) (same ▸ mem),
    fun same => h.notMem (c := '\r') (by decide) (same ▸ mem)⟩

theorem IsWord.decimal (n : Nat) : IsWord (Text.decimal n) :=
  ⟨decimal_ne_nil n, fun c mem => by simp [isWordChar, Char.isAlphanum, Annotated.isDigit_of_mem_decimal mem]⟩

/-! ### Numbers -/

theorem toList_toString_int (i : Int) :
    (toString i).toList = (if i < 0 then ['-'] else []) ++ Text.decimal i.natAbs := by
  cases i with
  | ofNat n =>
    have shown : toString (Int.ofNat n) = Nat.repr n := rfl
    rw [shown]
    simp [Text.decimal, Nat.repr]
  | negSucc n =>
    have shown : toString (Int.negSucc n) = "-" ++ Nat.repr (n + 1) := rfl
    rw [shown]
    simp [Text.decimal, Nat.repr]

theorem toString_int_injective {i j : Int} (same : (toString i).toList = (toString j).toList) : i = j := by
  have noSign (n : Nat) : '-' ∉ Text.decimal n := fun mem =>
    absurd (Annotated.isDigit_of_mem_decimal mem) (by decide)
  rw [toList_toString_int, toList_toString_int] at same
  split_ifs at same with first second second
  · have digits := decimal_injective (List.cons.inj same).2
    omega
  · exact absurd (same ▸ List.mem_cons_self : '-' ∈ [] ++ Text.decimal j.natAbs) (noSign _)
  · exact absurd (same ▸ List.mem_cons_self : '-' ∈ [] ++ Text.decimal i.natAbs) (noSign _)
  · have digits := decimal_injective same
    omega

theorem isWord_integer (i : Int) : IsWord (toString i).toList := by
  rw [toList_toString_int]
  refine .append_left (fun c mem => ?_) (.decimal _)
  split at mem
  · obtain rfl := List.mem_singleton.1 mem
    decide
  · cases mem

namespace Decimal

theorem isWord_positionalText (pointZero : Bool) {digits : List Char} (h : IsWord digits) (e : Int) :
    IsWord (positionalText pointZero digits e) := by
  have zeros (n : Nat) : ∀ c ∈ List.replicate n '0', isWordChar c := by
    intro c mem
    obtain rfl := List.eq_of_mem_replicate mem
    decide
  unfold positionalText
  extract_lets whole
  split_ifs
  · exact (h.append (zeros _)).append (by decide)
  · exact (h.append (zeros _)).append (by decide)
  · exact (IsWord.append (by decide) (zeros _)).append h.chars
  · refine ⟨by simp, fun c mem => ?_⟩
    rcases List.mem_append.1 mem with front | back
    · exact h.chars c (List.mem_of_mem_take front)
    · rcases List.mem_cons.1 back with rfl | back
      · decide
      · exact h.chars c (List.mem_of_mem_drop back)

/-- Without exponents numbers are words if the words for what is no number are. -/
theorem isWord_text {style : Style} (noExponent : style.positional = none)
    (words : IsWord style.notANumber.toList ∧ IsWord style.infinity.toList) (f : BinaryFormat) (v : BinaryValue) :
    IsWord (style.text f v) := by
  have sign (negative : Bool) : ∀ c ∈ if negative then ['-'] else [], isWordChar c := by
    cases negative <;> decide
  cases v with
  | notANumber => exact words.1
  | infinite negative => exact .append_left (sign negative) words.2
  | finite negative m q =>
    simp only [Style.text, noExponent, if_true]
    exact .append_left (sign negative) (isWord_positionalText _ (.decimal _) _)

end Decimal

namespace Literal

open ApiSurface.Decimal

theorem isWord_doubleLiteral (v : BinaryValue) : IsWord (doubleLiteral v) := isWord_text rfl (by decide) _ v

theorem isWord_floatLiteral (v : BinaryValue) : IsWord (floatLiteral v) := by
  unfold floatLiteral
  split
  · split
    · exact isWord_doubleLiteral _
    · exact isWord_text rfl (by decide) _ _
  · exact isWord_doubleLiteral _

theorem singleLine_stringLiteral (text : List Char) : SingleLine (stringLiteral text) := by
  simp [stringLiteral, singleLine_escape (.inl rfl)]

theorem singleLine_charLiteral (c : Char) : SingleLine (charLiteral c) := by
  simp [charLiteral, singleLine_escape (.inr rfl)]

end Literal

/-! ### Constants -/

namespace Annotated

/-- A text without blanks that no value ends in is given back, unless it begins like another value. -/
theorem SoundLiteral.of_clear {t : List Char} (filled : t ≠ []) (clear : Clear brackets valueEnds t)
    (solid : ∀ c ∈ t, isBlank c = false) (starts : ∀ c ∈ t.head?, c ∉ ['[', '"', '\'']) : SoundLiteral t := by
  cases t with
  | nil => exact absurd rfl filled
  | cons c more =>
    have noSpace : ' ' ∉ c :: more := fun mem => absurd (solid ' ' mem) (by decide)
    have first := starts c rfl
    refine .plain ?_ clear (fun d mem => solid d (List.mem_of_getLast? mem)) ?_
    · rw [List.mem_cons, not_or]
      exact ⟨fun same => noSpace (by simp [same]), first⟩
    · simp only [beginsUse, Bool.or_eq_false_iff, Option.isSome_eq_false_iff, Option.isNone_iff_eq_none, afterLead?,
        isPrefixOf?_eq_none_iff]
      exact ⟨fun lead => noSpace (lead.subset (by decide)), fun lead => noSpace (lead.subset (by decide))⟩

theorem SoundLiteral.of_word {t : List Char} (h : IsWord t) : SoundLiteral t := by
  have others : ∀ d ∈ marks ++ valueEnds ++ ['[', '"', '\''], isWordChar d = false := by decide
  refine .of_clear h.filled (clear_of_plain (List.Subset.refl _) fun c mem => ⟨fun mark => ?_, fun mark => ?_⟩)
    (fun c mem => isBlank_of_isWordChar (h.chars c mem)) fun c mem mark => ?_
  · exact h.notMem (others c (by simp [mark])) mem
  · exact h.notMem (others c (by simp [mark])) mem
  · exact h.notMem (others c (List.mem_append_right _ mark)) (List.mem_of_mem_head? mem)

theorem SoundLiteral.charLiteral (c : Char) : SoundLiteral (Literal.charLiteral c) :=
  .character (throughQuote?_escape (.inr rfl) [c] [])

/-- A value that a line gives back, on one line. -/
structure Prints (v : ElementValue) : Prop where
  sound : SoundValue v
  singleLine : SingleLine (printValue v)

theorem Prints.of_word {t : List Char} (h : IsWord t) : Prints (.literal (String.ofList t)) := by
  refine ⟨?_, ?_⟩
  · simpa [SoundValue] using SoundLiteral.of_word h
  · simpa [printValue] using h.singleLine

theorem Prints.charLiteral (c : Char) : Prints (.literal (String.ofList (Literal.charLiteral c))) := by
  refine ⟨?_, ?_⟩
  · simpa [SoundValue] using SoundLiteral.charLiteral c
  · simpa [printValue] using Literal.singleLine_charLiteral c

theorem Prints.string (text : String) : Prints (.string text) :=
  ⟨trivial, by simp [printValue, singleLine_escape (.inl rfl)]⟩

end Annotated

namespace ClassFile

open ApiSurface.Literal ApiSurface.Annotated

theorem isWord_truthText (bits : UInt32) : IsWord (truthText bits) := by
  unfold truthText
  split <;> decide

/-- A constant of a field stays on one line. -/
theorem singleLine_constantText {pool : Pool} {type : List Char} {index : UInt16} {text : List Char}
    (h : constantText pool type index = .ok text) : SingleLine text := by
  unfold constantText at h
  obtain ⟨entry, -, h⟩ := bind_eq_ok_iff.1 h
  cases entry with
  | integer bits =>
    simp only [pure_eq_ok_except] at h
    split_ifs at h
    · obtain rfl := Except.ok.inj h
      exact (isWord_truthText bits).singleLine
    · obtain rfl := Except.ok.inj h
      exact singleLine_charLiteral _
    · obtain rfl := Except.ok.inj h
      exact (isWord_integer _).singleLine
  | long bits =>
    obtain rfl := Except.ok.inj h
    exact (isWord_integer _).singleLine
  | float bits =>
    obtain rfl := Except.ok.inj h
    exact (isWord_floatLiteral _).singleLine
  | double bits =>
    obtain rfl := Except.ok.inj h
    exact (isWord_doubleLiteral _).singleLine
  | stringRef index =>
    obtain ⟨content, -, h⟩ := bind_eq_ok_iff.1 h
    obtain rfl := Except.ok.inj h
    exact singleLine_stringLiteral content
  | text | classRef | moduleRef | packageRef | other => cases h

end ClassFile
end ApiSurface
