import ApiSurface.Format
import ApiSurface.Proofs.Legacy.Oldest
import ApiSurface.Proofs.Text.Numeral
import ApiSurface.Proofs.Text.Units

/-!
Characters by number. The two formats with old constants spell a character by the number of its code unit, which
the reader takes for the character, unless the unit is half of a pair. Main statements: a line whose constant is a
literal of its type is the same again after it has been read and written, however the line is spaced
(`Declares.reproduced`), and codes of 16 bits are read exactly if they belong to characters, and written as they
were (`characterCode_kept`). Half of a pair is refused (`decodeConstant_halfOfPair`).
-/

namespace ApiSurface

open ApiSurface.Text ApiSurface.Line ApiSurface.Literal

namespace Literal

/-! ### Codes and constants -/

/-- The number of a code unit is read as the character of its last 16 bits, unless they are half of a pair. -/
theorem decodeConstant_decimal {n : Nat} (known : n ≤ 0xFFFFFFFF) :
    decodeConstant charType (decimal n) =
      if IsSurrogate (n % 0x10000) then .error (.loneSurrogate n)
      else .ok (charLiteral (Char.ofNat (n % 0x10000))) := by
  have small : n % 0x10000 < 0x10000 := Nat.mod_lt n (by decide)
  have number : readDecimal? 0xFFFFFFFF (trim (decimal n)) = some n := by
    rw [trim_decimal, readDecimal?_decimal known]
  split
  · rename_i half
    have unread : ofUnits? [n % 0x10000] = none := by
      refine Option.eq_none_iff_forall_ne_some.2 fun text found => ?_
      cases paired_of_ofUnits? found with
      | single alone => exact alone half
    simp [decodeConstant, stringType_ne_charType, number, unread]
  · rename_i alone
    have read : ofUnits? [n % 0x10000] = some [Char.ofNat (n % 0x10000)] := by
      refine (ofUnits?_eq_some_iff (by simpa using small)).2 ?_
      rw [units_cons, charUnits_ofNat small alone]
      rfl
    simp [decodeConstant, stringType_ne_charType, number, read]

/-- A number of more than 32 bits is no code. -/
theorem decodeConstant_decimal_of_lt {n : Nat} (large : 0xFFFFFFFF < n) :
    decodeConstant charType (decimal n) = .error (.badCharacter (decimal n)) := by
  simp [decodeConstant, stringType_ne_charType, trim_decimal, readDecimal?_decimal_eq_none large]

/-- The codes of 16 bits that belong to characters. -/
def IsCharacterCode (n : Nat) : Prop := n ≤ 0xFFFF ∧ ¬IsSurrogate n

instance : DecidablePred IsCharacterCode := fun n => inferInstanceAs (Decidable (n ≤ 0xFFFF ∧ ¬IsSurrogate n))

theorem IsCharacterCode.toNat_ofNat {n : Nat} (h : IsCharacterCode n) : (Char.ofNat n).toNat = n := by
  refine Text.toNat_ofNat ?_
  obtain ⟨small, alone⟩ := h
  unfold IsSurrogate at alone
  unfold Nat.isValidChar
  omega

/-- Up to 16 bits, or with more than 32, a number is read exactly if it is the code of a character. -/
theorem decodeConstant_decimal_eq_ok_iff {n : Nat} (known : n ≤ 0xFFFF ∨ 0xFFFFFFFF < n) {constant : List Char} :
    decodeConstant charType (decimal n) = .ok constant ↔ IsCharacterCode n ∧ charLiteral (Char.ofNat n) = constant := by
  rcases known with small | large
  · rw [decodeConstant_decimal (by omega), Nat.mod_eq_of_lt (by omega)]
    split
    · rename_i half
      simp [IsCharacterCode, half]
    · rename_i alone
      simp [IsCharacterCode, small, alone]
  · have other : ¬IsCharacterCode n := fun h => by
      have := h.1
      omega
    simp [decodeConstant_decimal_of_lt large, other]

theorem IsCharacterCode.encodeConstant {n : Nat} (h : IsCharacterCode n) :
    Literal.encodeConstant charType (charLiteral (Char.ofNat n)) = decimal n := by
  have small : (Char.ofNat n).toNat < 0x10000 := by
    rw [h.toNat_ofNat]
    exact Nat.lt_succ_of_le h.1
  simp [Literal.encodeConstant, stringType_ne_charType, unescape_unquote?_charLiteral, head?_units_charUnits small,
    h.toNat_ofNat]

theorem IsCharacterCode.isPlainLiteralOf {n : Nat} (h : IsCharacterCode n) :
    IsPlainLiteralOf charType (charLiteral (Char.ofNat n)) where
  string same := absurd same (by decide)
  char _ := ⟨Char.ofNat n, by rw [h.toNat_ofNat]; exact Nat.lt_succ_of_le h.1, rfl⟩
  plain _ other := absurd rfl other

end Literal

namespace Legacy

/-! ### Lines with old constants -/

/-- What is in front of the constant on the line of a field of this type, with nothing in it that the reader or
the writer would take for the mark of a constant. -/
structure Declares (declaration type : List Char) : Prop where
  field : isFieldLine declaration = true
  typed : fieldType declaration = .ok type
  old : ¬constantMark <:+: declaration ++ constantMark.dropLast
  modern : ¬" = ".toList <:+: declaration ++ " = ".toList.dropLast

/-- A field and its constant in the old spelling. -/
def withOld (declaration old : List Char) : List Char := declaration ++ constantMark ++ (old ++ constantEnd)

/-- A field and its constant in the spelling of today. -/
def withModern (declaration modern : List Char) : List Char := declaration ++ " = ".toList ++ modern

variable {declaration type old modern : List Char} {tokens more : List (List Char)}

theorem Declares.decodeField (h : Declares declaration type) (read : decodeConstant type old = .ok modern) :
    decodeField (withOld declaration old) = .ok (withModern declaration modern) :=
  decodeField_append h.field h.typed h.old read

theorem Declares.encodeField (h : Declares declaration type) (modern : List Char) :
    encodeField (withModern declaration modern) = .ok (withOld declaration (encodeConstant type modern)) :=
  encodeField_append h.field h.typed h.modern modern

/-! ### Types that stay -/

/-- Tokens behind those of a line. -/
theorem cutTokens_append {front : List Char} (cut : cutTokens front = .ok tokens)
    (clear : ∀ u ∈ more, Clear legacyBrackets [' '] u) : cutTokens (front ++ spaced more) = .ok (tokens ++ more) := by
  obtain ⟨filled, rfl, each⟩ := cutTokens_eq_ok_iff.1 cut
  refine cutTokens_eq_ok_iff.2 ⟨by simp [filled], ?_, fun t mem => (List.mem_append.1 mem).elim (each t) (clear t)⟩
  cases tokens with
  | nil => exact absurd rfl filled
  | cons t ts => simp only [List.cons_append, join_eq_append_flatMap, List.flatMap_append, spaced, List.append_assoc]

/-- The place behind the modifiers is the same with more tokens behind it. -/
theorem placeAfterModifiers_append (inside : placeAfterModifiers tokens < tokens.length) (more : List (List Char)) :
    placeAfterModifiers (tokens ++ more) = placeAfterModifiers tokens := by
  cases tokens with
  | nil => cases inside
  | cons t ts =>
    simp only [placeAfterModifiers, List.length_cons] at inside
    rw [List.cons_append]
    simp only [placeAfterModifiers, List.takeWhile_append]
    rw [if_neg (by omega)]

/-- A token that is changed into itself. -/
theorem changeToken_eq_self {change : List Char → Except Malformed (List Char)} {place : Nat} {t : List Char}
    (found : (filled tokens)[place]? = some t) (kept : change t = .ok t) :
    changeToken change place tokens = .ok tokens := by
  -- empty tokens are passed without counting, here as in `filled`
  induction tokens generalizing place with
  | nil => rfl
  | cons u ts ih =>
    unfold changeToken
    by_cases empty : u.isEmpty
    · have others : filled (u :: ts) = filled ts := List.filter_cons_of_neg (by simpa using empty)
      rw [others] at found
      rw [if_pos empty, ih found, map_ok]
    · have first : filled (u :: ts) = u :: filled ts := List.filter_cons_of_pos (by simpa using empty)
      rw [first] at found
      rw [if_neg empty]
      cases place with
      | zero =>
        obtain rfl := Option.some.inj found
        simp only [kept, map_ok]
      | succ place => simp only [ih found, map_ok]

theorem ofTag?_of_isFieldLine {line : List Char} (h : isFieldLine line = true) :
    MemberKind.ofTag? (String.ofList (firstWord line)) = some .field := by
  obtain ⟨rest, rfl⟩ := List.isPrefixOf_iff_prefix.1 h
  have word : firstWord ("FLD ".toList ++ rest) = "FLD".toList :=
    firstWord_append (by decide : ' ' ∉ "FLD".toList) rest
  rw [word]
  decide

/-- The line of a field whose type is changed into itself stays as it is, whatever follows its declaration. -/
theorem Declares.changeTypes (h : Declares declaration type) {change : List Char → List Char}
    (kept : change type = type) (noList : listsParameters type = false)
    (clear : ∀ u ∈ more, Clear legacyBrackets [' '] u) :
    changeTypes change (declaration ++ spaced more) = .ok (declaration ++ spaced more) := by
  obtain ⟨tokens, cut, found⟩ := fieldType_eq_ok_iff.1 h.typed
  have inside := (List.getElem?_eq_some_iff.1 found).1
  have both := cutTokens_append cut clear
  obtain ⟨-, whole, -⟩ := cutTokens_eq_ok_iff.1 both
  have place : placeAfterModifiers (filled (tokens ++ more)) = placeAfterModifiers (filled tokens) := by
    rw [filled_append]
    exact placeAfterModifiers_append inside _
  have again : (filled (tokens ++ more))[placeAfterModifiers (filled tokens)]? = some type := by
    rw [filled_append, List.getElem?_append_left inside]
    exact found
  have same : changeToken (fun t => .ok (change t)) (placeAfterModifiers (filled tokens)) (tokens ++ more) =
      .ok (tokens ++ more) := changeToken_eq_self again (by rw [kept])
  unfold Legacy.changeTypes
  simp only [ofTag?_of_isFieldLine (isFieldLine_append h.field _), both, ok_bind, place, again]
  simp [noList, same, joinSpaced, whole]

/-- An old constant stands in two tokens. -/
theorem withOld_eq_spaced (declaration old : List Char) :
    withOld declaration old =
      declaration ++ spaced ["<constant>".toList, "<value=\"".toList ++ (old ++ constantEnd)] := by
  have mark : constantMark = ' ' :: ("<constant>".toList ++ ' ' :: "<value=\"".toList) := by decide
  simp only [withOld, mark, spaced_cons, spaced_nil, List.append_assoc, List.cons_append, List.append_nil]

/-! ### Lines that are the same again -/

/-- The types that both spellings of arrays have in common. -/
structure IsCommonType (type : List Char) : Prop where
  source : arrayToSource type = type
  descriptor : arrayToDescriptor type = type
  noList : listsParameters type = false

theorem isCommonType_charType : IsCommonType charType := by constructor <;> decide

theorem Declares.changeTypes_withOld (h : Declares declaration type) {constant : List Char}
    (literal : IsPlainLiteralOf type constant) {change : List Char → List Char} (kept : change type = type)
    (noList : listsParameters type = false) :
    Legacy.changeTypes change (withOld declaration (encodeConstant type constant)) =
      .ok (withOld declaration (encodeConstant type constant)) := by
  rw [withOld_eq_spaced]
  refine h.changeTypes kept noList fun u mem => ?_
  simp only [List.mem_cons, List.not_mem_nil, or_false] at mem
  rcases mem with rfl | rfl
  · unfold Clear
    decide
  · exact LegacyRule.clear_oldValue literal (by decide)

/-- The line of a field with an old constant is read as the one with the constant of today, from which it is
written again, in both formats with old constants. -/
theorem Declares.reproduced (h : Declares declaration type) (common : IsCommonType type) {constant : List Char}
    (literal : IsPlainLiteralOf type constant) {f : Format} (listed : f ∈ [Format.v21, Format.v31])
    (className : String) :
    LegacyRule.decodeAll className f.rules (withOld declaration (encodeConstant type constant)) =
        .ok (some (withModern declaration constant)) ∧
      LegacyRule.encodeAll className f.rules (withModern declaration constant) =
        .ok (withOld declaration (encodeConstant type constant)) := by
  let line := withOld declaration (encodeConstant type constant)
  have decoded : Legacy.decodeField line = .ok (withModern declaration constant) :=
    h.decodeField (decodeConstant_encodeConstant literal.toIsLiteralOf)
  have encoded : Legacy.encodeField (withModern declaration constant) = .ok line := h.encodeField constant
  simp only [List.mem_cons, List.not_mem_nil, or_false] at listed
  rcases listed with rfl | rfl
  · -- the oldest format has three more rules, each of which keeps the line
    have kind : LineKind.of line = .member .field := by
      refine LegacyRule.kind_of_isFieldLine ?_
      rw [show line = _ from withOld_eq_spaced _ _]
      exact isFieldLine_append h.field _
    have noNull : line ≠ nullSuperLine.toList := fun same => by
      rw [same] at kind
      exact absurd kind (by decide)
    have names (a b : List Char) : renameConstructor a b line = .ok line :=
      LegacyRule.renameConstructor_eq_self (by rw [kind]; decide) a b
    have source : Legacy.changeTypes arrayToSource line = .ok line :=
      h.changeTypes_withOld literal common.source common.noList
    have descriptor : Legacy.changeTypes arrayToDescriptor line = .ok line :=
      h.changeTypes_withOld literal common.descriptor common.noList
    constructor
    · simp only [Format.v21, Format.of, LegacyRule.decodeAll, LegacyRule.decode, line, if_neg noNull, source, names,
        decoded, map_ok]
    · simp only [Format.v21, Format.of, LegacyRule.encodeAll, LegacyRule.encode, encoded, names, descriptor, line]
  · constructor
    · simp only [Format.v31, Format.of, LegacyRule.decodeAll, LegacyRule.decode, line, decoded, map_ok]
    · simp only [Format.v31, Format.of, LegacyRule.encodeAll, LegacyRule.encode, encoded, line]

end Legacy

namespace Literal

open Legacy

/-! ### Main statement -/

/-- **Characters by number.** A number of up to 16 bits, or of more than 32, is read exactly if it is the code of a
character. What is read is written as the same number again, and so is the line of a field with it in both formats
that have such constants. -/
theorem characterCode_kept (n : Nat) (known : n ≤ 0xFFFF ∨ 0xFFFFFFFF < n) :
    ((∃ constant, decodeConstant charType (decimal n) = .ok constant) ↔ IsCharacterCode n) ∧
      ∀ constant, decodeConstant charType (decimal n) = .ok constant →
        encodeConstant charType constant = decimal n ∧
        ∀ declaration, Declares declaration charType → ∀ f ∈ [Format.v21, Format.v31], ∀ className,
          LegacyRule.decodeAll className f.rules (withOld declaration (decimal n)) =
              .ok (some (withModern declaration constant)) ∧
            LegacyRule.encodeAll className f.rules (withModern declaration constant) =
              .ok (withOld declaration (decimal n)) := by
  constructor
  · constructor
    · rintro ⟨constant, read⟩
      exact ((decodeConstant_decimal_eq_ok_iff known).1 read).1
    · intro code
      exact ⟨_, (decodeConstant_decimal_eq_ok_iff known).2 ⟨code, rfl⟩⟩
  · intro constant read
    obtain ⟨code, rfl⟩ := (decodeConstant_decimal_eq_ok_iff known).1 read
    have written := code.encodeConstant
    refine ⟨written, fun declaration declares f listed className => ?_⟩
    rw [← written]
    exact declares.reproduced isCommonType_charType code.isPlainLiteralOf listed className

/-- A quote by number: escaped between its quotes, and the line of its field the same again. -/
theorem characterCode_kept_quote :
    decodeConstant charType (decimal 39) = .ok "'\\''".toList ∧
      encodeConstant charType "'\\''".toList = decimal 39 ∧
      LegacyRule.decodeAll "a.B" Format.v21.rules "FLD public char  c <constant> <value=\"39\">".toList =
        .ok (some "FLD public char  c = '\\''".toList) ∧
      LegacyRule.encodeAll "a.B" Format.v21.rules "FLD public char  c = '\\''".toList =
        .ok "FLD public char  c <constant> <value=\"39\">".toList := by
  have known : 39 ≤ 0xFFFF ∨ 0xFFFFFFFF < 39 := .inl (by decide)
  have declares : Declares "FLD public char  c".toList charType := by constructor <;> decide
  obtain ⟨-, kept⟩ := characterCode_kept 39 known
  have read : decodeConstant charType (decimal 39) = .ok "'\\''".toList := by decide
  obtain ⟨written, lines⟩ := kept _ read
  exact ⟨read, written, lines _ declares Format.v21 (by decide) "a.B"⟩

/-- Half of a pair is refused. -/
theorem decodeConstant_halfOfPair :
    55296 ≤ 65535 ∧ decodeConstant charType (decimal 55296) = .error (.loneSurrogate 55296) := by
  refine ⟨by decide, ?_⟩
  rw [decodeConstant_decimal (by decide), if_pos (by decide)]

end Literal

end ApiSurface
