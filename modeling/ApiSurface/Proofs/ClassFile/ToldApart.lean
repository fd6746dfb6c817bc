import ApiSurface.Proofs.ClassFile.Described
import ApiSurface.Proofs.Line.Member
import ApiSurface.Proofs.Literal.Constant
import ApiSurface.Proofs.Literal.Enclosed
import ApiSurface.Proofs.Text.Units

/-!
Constants that are told apart. Whole numbers, truth values, characters and strings of a class file are written in a
way that depends on their type. Main statement: two values of one type are written as the same text only if they
are equal, or both are codes that the replacement character is written for, and so are the lines of fields that
have them (`constants_toldApart`). Half of a pair is such a code (`replaced_notToldApart`).
-/

namespace ApiSurface

open ApiSurface.Text ApiSurface.Literal ApiSurface.Line ApiSurface.Annotated

namespace ClassFile

/-! ### Values of types -/

/-- The types of constants other than floating-point numbers. -/
inductive ConstantType where
  | boolean | byte | short | char | int | long | string
  deriving DecidableEq, Repr

/-- The value of a constant as the pool holds it. -/
inductive ConstantValue where
  | integer (bits : UInt32)
  | long (bits : UInt64)
  | string (text : List Char)
  deriving DecidableEq, Repr

namespace ConstantType

/-- The name of the type. -/
def name : ConstantType → String
  | .boolean => "boolean"
  | .byte => "byte"
  | .short => "short"
  | .char => "char"
  | .int => "int"
  | .long => "long"
  | .string => "java.lang.String"

/-- The tag of annotation values of the type. -/
def tag : ConstantType → UInt8
  | .boolean => 'Z'.toUInt8
  | .byte => 'B'.toUInt8
  | .short => 'S'.toUInt8
  | .char => 'C'.toUInt8
  | .int => 'I'.toUInt8
  | .long => 'J'.toUInt8
  | .string => 's'.toUInt8

/-- The values that constants of the type have. -/
def Valid : ConstantType → ConstantValue → Prop
  | .boolean, .integer bits => signed32 bits = 0 ∨ signed32 bits = 1
  | .byte, .integer bits => -0x80 ≤ signed32 bits ∧ signed32 bits ≤ 0x7F
  | .short, .integer bits => -0x8000 ≤ signed32 bits ∧ signed32 bits ≤ 0x7FFF
  | .char, .integer bits => 0 ≤ signed32 bits ∧ signed32 bits ≤ 0xFFFF
  | .int, .integer _ | .long, .long _ | .string, .string _ => True
  | _, _ => False

/-- How a constant of the type is written. -/
def text : ConstantType → ConstantValue → List Char
  | .boolean, .integer bits => truthText bits
  | .char, .integer bits => characterText bits
  | _, .integer bits => integerText bits
  | _, .long bits => longText bits
  | _, .string text => stringLiteral text

/-- A code that the replacement character is written for: half of a pair, or that of this character. -/
def Replaced : ConstantType → ConstantValue → Prop
  | .char, .integer bits => IsSurrogate bits.toNat ∨ bits.toNat = 0xFFFD
  | _, _ => False

end ConstantType

/-! ### Texts of values -/

theorem signed32_inj {a b : UInt32} : signed32 a = signed32 b ↔ a = b := by
  rw [signed32, signed32, BitVec.toInt_inj, UInt32.toBitVec_inj]

theorem signed64_inj {a b : UInt64} : signed64 a = signed64 b ↔ a = b := by
  rw [signed64, signed64, BitVec.toInt_inj, UInt64.toBitVec_inj]

theorem integerText_inj {a b : UInt32} : integerText a = integerText b ↔ a = b :=
  ⟨fun same => signed32_inj.1 (toString_int_injective same), congrArg _⟩

theorem longText_inj {a b : UInt64} : longText a = longText b ↔ a = b :=
  ⟨fun same => signed64_inj.1 (toString_int_injective same), congrArg _⟩

/-- A number without a sign is the one that its bits count. -/
theorem toNat_of_signed32_nonneg {bits : UInt32} (positive : 0 ≤ signed32 bits) :
    (bits.toNat : Int) = signed32 bits := by
  unfold signed32 at positive ⊢
  rw [BitVec.toInt_eq_toNat_cond] at positive ⊢
  have same : bits.toBitVec.toNat = bits.toNat := rfl
  have small : bits.toBitVec.toNat < 2 ^ 32 := bits.toBitVec.isLt
  split_ifs at positive ⊢ <;> omega

theorem truthText_inj {a b : UInt32} (first : ConstantType.boolean.Valid (.integer a))
    (second : ConstantType.boolean.Valid (.integer b)) : truthText a = truthText b ↔ a = b := by
  have known {bits : UInt32} (valid : ConstantType.boolean.Valid (.integer bits)) : bits = 0 ∨ bits = 1 :=
    valid.imp (fun zero => signed32_inj.1 (zero.trans (by decide))) fun one => signed32_inj.1 (one.trans (by decide))
  rcases known first with rfl | rfl <;> rcases known second with rfl | rfl <;> decide

/-- The character that is written for a code of 16 bits. -/
def shownCharacter (code : Nat) : Char := if IsSurrogate code then '\ufffd' else Char.ofNat code

/-- A code of 16 bits is written as its character, unless it belongs to none. -/
theorem characterText_eq {bits : UInt32} (valid : ConstantType.char.Valid (.integer bits)) :
    characterText bits = charLiteral (shownCharacter bits.toNat) := by
  have code := toNat_of_signed32_nonneg valid.1
  have bound := valid.2
  have character : bits.toNat.isValidChar ↔ ¬IsSurrogate bits.toNat := by
    unfold Nat.isValidChar IsSurrogate
    omega
  simp only [characterText, character, ite_not, shownCharacter]

/-- The code of the character that is written for one. -/
theorem toNat_shownCharacter {code : Nat} (small : code ≤ 0xFFFF) :
    (shownCharacter code).toNat = if IsSurrogate code then 0xFFFD else code := by
  unfold shownCharacter
  split
  · decide
  · rename_i alone
    refine toNat_ofNat ?_
    unfold IsSurrogate at alone
    unfold Nat.isValidChar
    omega

theorem characterText_inj {a b : UInt32} (first : ConstantType.char.Valid (.integer a))
    (second : ConstantType.char.Valid (.integer b)) :
    characterText a = characterText b ↔
      a = b ∨ ConstantType.char.Replaced (.integer a) ∧ ConstantType.char.Replaced (.integer b) := by
  have small {bits : UInt32} (valid : ConstantType.char.Valid (.integer bits)) : bits.toNat ≤ 0xFFFF := by
    have code := toNat_of_signed32_nonneg valid.1
    have bound := valid.2
    omega
  -- characters are compared by code, where the halves of pairs have one in common
  have shown : characterText a = characterText b ↔
      (shownCharacter a.toNat).toNat = (shownCharacter b.toNat).toNat := by
    rw [characterText_eq first, characterText_eq second, charLiteral_eq, charLiteral_eq, enclosed_inj (.inr rfl),
      List.cons.injEq, and_iff_left rfl, Char.toNat_inj]
  rw [shown, toNat_shownCharacter (small first), toNat_shownCharacter (small second), ← UInt32.toNat_inj]
  simp only [ConstantType.Replaced]
  split_ifs <;> unfold IsSurrogate at * <;> omega

/-- Two values of a type are written as the same text only if they are equal or both replaced. -/
theorem ConstantType.text_inj {type : ConstantType} {v w : ConstantValue} (first : type.Valid v)
    (second : type.Valid w) : type.text v = type.text w ↔ v = w ∨ type.Replaced v ∧ type.Replaced w := by
  cases type with
  | boolean =>
    cases v with
    | integer a =>
      cases w with
      | integer b => simpa [text, Replaced] using truthText_inj first second
      | long | string => exact second.elim
    | long | string => exact first.elim
  | char =>
    cases v with
    | integer a =>
      cases w with
      | integer b => simpa [text] using characterText_inj first second
      | long | string => exact second.elim
    | long | string => exact first.elim
  | byte | short | int =>
    cases v with
    | integer a =>
      cases w with
      | integer b => simpa [text, Replaced] using integerText_inj
      | long | string => exact second.elim
    | long | string => exact first.elim
  | long =>
    cases v with
    | long a =>
      cases w with
      | long b => simpa [text, Replaced] using longText_inj
      | integer | string => exact second.elim
    | integer | string => exact first.elim
  | string =>
    cases v with
    | string a =>
      cases w with
      | string b => simpa [text, Replaced, stringLiteral_eq] using enclosed_inj (.inl rfl)
      | integer | long => exact second.elim
    | integer | long => exact first.elim

/-! ### Values in the pool -/

/-- The entry of an index holds the constant of a field: a string by the index of its text. -/
def HoldsConstant (pool : Pool) (index : UInt16) : ConstantValue → Prop
  | .integer bits => pool.entry index = .ok (.integer bits)
  | .long bits => pool.entry index = .ok (.long bits)
  | .string text => ∃ ref, pool.entry index = .ok (.stringRef ref) ∧ pool.text ref = .ok text

/-- The entry of an index holds the value of an annotation: a string by itself. -/
def HoldsElement (pool : Pool) (index : UInt16) : ConstantValue → Prop
  | .integer bits => pool.entry index = .ok (.integer bits)
  | .long bits => pool.entry index = .ok (.long bits)
  | .string text => pool.text index = .ok text

variable {pool : Pool} {index : UInt16} {type : ConstantType} {v : ConstantValue}

theorem entry_of_text {text : List Char} (read : pool.text index = .ok text) :
    ∃ bytes, pool.entry index = .ok (.text bytes) := by
  unfold Pool.text at read
  obtain ⟨entry, found, read⟩ := bind_eq_ok_iff.1 read
  cases entry with
  | text bytes => exact ⟨bytes, found⟩
  | integer | long | float | double | classRef | stringRef | moduleRef | packageRef | other => cases read

/-- The constant of a field is written as its type says. -/
theorem constantText_eq (valid : type.Valid v) (holds : HoldsConstant pool index v) :
    constantText pool type.name.toList index = .ok (type.text v) := by
  cases v with
  | integer bits =>
    have found : pool.entry index = .ok (.integer bits) := holds
    simp only [constantText, found, ok_bind, pure_eq_ok_except]
    cases type with
    | long | string => exact valid.elim
    | boolean | byte | short | char | int => rfl
  | long bits =>
    have found : pool.entry index = .ok (.long bits) := holds
    simp only [constantText, found, ok_bind, pure_eq_ok_except]
    cases type with
    | long => rfl
    | boolean | byte | short | char | int | string => exact valid.elim
  | string text =>
    obtain ⟨ref, found, read⟩ := holds
    simp only [constantText, found, ok_bind, read, pure_eq_ok_except]
    cases type with
    | string => rfl
    | boolean | byte | short | char | int | long => exact valid.elim

/-- The value of an annotation has the type that its tag says and is written likewise. -/
theorem describeConstant_eq (valid : type.Valid v) (holds : HoldsElement pool index v) :
    ∃ value, describeConstant pool type.tag index = .ok (type.name, value) ∧ printValue value = type.text v := by
  cases v with
  | integer bits =>
    have found : pool.entry index = .ok (.integer bits) := holds
    simp only [describeConstant, found, ok_bind]
    cases type with
    | long | string => exact valid.elim
    | boolean | byte | short | char | int => exact ⟨_, rfl, by simp [printValue, ConstantType.text]⟩
  | long bits =>
    have found : pool.entry index = .ok (.long bits) := holds
    simp only [describeConstant, found, ok_bind]
    cases type with
    | long => exact ⟨_, rfl, by simp [printValue, ConstantType.text]⟩
    | boolean | byte | short | char | int | string => exact valid.elim
  | string text =>
    obtain ⟨bytes, found⟩ := entry_of_text holds
    have read : pool.text index = .ok text := holds
    simp only [describeConstant, found, ok_bind, read]
    cases type with
    | string => exact ⟨_, rfl, by simp [printValue, ConstantType.text, stringLiteral]⟩
    | boolean | byte | short | char | int | long => exact valid.elim

/-! ### Lines of fields -/

/-- The entry of a field has a constant with this value, and this type. -/
structure HasConstant (pool : Pool) (entry : MemberEntry) (type : ConstantType) (v : ConstantValue) : Prop where
  typed : ∃ t, declaredType pool entry = .ok t ∧ t.render = type.name.toList
  valued : ∃ index, constantIndex pool entry = .ok (some index) ∧ HoldsConstant pool index v

/-- A field is captured with the text of its constant. -/
theorem HasConstant.captured {entry : MemberEntry} (h : HasConstant pool entry type v) (valid : type.Valid v)
    {className : String} {name : List Char} {modifiers : Modifiers} {m : Member}
    (described : describeField pool className name modifiers entry = .ok m) :
    ∃ uses, m = ⟨className, String.ofList name, modifiers.visible, uses,
      .field type.name (some (String.ofList (type.text v)))⟩ := by
  obtain ⟨t, typed, rendered⟩ := h.typed
  obtain ⟨index, indexed, holds⟩ := h.valued
  obtain ⟨found, place, constant, uses, typed', indexed', valued, -, rfl⟩ := describeField_steps described
  obtain rfl : t = found := Except.ok.inj (typed.symm.trans typed')
  obtain rfl : some index = place := Except.ok.inj (indexed.symm.trans indexed')
  have text := constantText_eq valid holds
  rw [← rendered] at text
  have given : constant = some (type.text v) := by
    simp only [Option.mapM_some, text] at valued
    exact (Except.ok.inj valued).symm
  exact ⟨uses, by simp [given, rendered]⟩

/-- The lines of fields that differ in their constants are different. -/
theorem constant_eq_of_formatMember {className declaring name type s t : String} {set : Modifiers}
    {uses others : List AnnotationUse}
    (same : formatMember .full .empty className ⟨declaring, name, set, uses, .field type (some s)⟩ =
      formatMember .full .empty className ⟨declaring, name, set, others, .field type (some t)⟩) : s = t := by
  rw [formatMember_full, formatMember_full] at same
  have tokens := List.append_cancel_left (List.append_cancel_left same)
  simp only [detailText, detailTokens, LineStyle.full, if_true, List.filter_append, spaced_append] at tokens
  have last := List.append_cancel_left tokens
  exact String.toList_inj.1 (by simpa [spaced_cons, spaced_nil] using last)

/-! ### Main statement -/

/-- **Constants are told apart.** Two values of one type, in whatever class files, are written as constants of fields
and as values of annotations, and the texts are the same exactly if the values are or both are codes that the
replacement character is written for. Fields of one name and type with any other two values have different lines. -/
theorem constants_toldApart {type : ConstantType} {v w : ConstantValue} (first : type.Valid v)
    (second : type.Valid w) (pool pool' : Pool) :
    (∀ index index', HoldsConstant pool index v → HoldsConstant pool' index' w →
        ∃ s t, constantText pool type.name.toList index = .ok s ∧ constantText pool' type.name.toList index' = .ok t ∧
          (s = t ↔ v = w ∨ type.Replaced v ∧ type.Replaced w)) ∧
      (∀ index index', HoldsElement pool index v → HoldsElement pool' index' w →
        ∃ a b, describeConstant pool type.tag index = .ok (type.name, a) ∧
          describeConstant pool' type.tag index' = .ok (type.name, b) ∧
          (printValue a = printValue b ↔ v = w ∨ type.Replaced v ∧ type.Replaced w)) ∧
      ∀ entry entry' className name modifiers m m', HasConstant pool entry type v → HasConstant pool' entry' type w →
        describeField pool className name modifiers entry = .ok m →
        describeField pool' className name modifiers entry' = .ok m' →
        formatMember .full .empty className m = formatMember .full .empty className m' →
          v = w ∨ type.Replaced v ∧ type.Replaced w := by
  have texts := type.text_inj first second
  refine ⟨?fields, ?elements, ?lines⟩
  case fields =>
    intro index index' holds holds'
    exact ⟨_, _, constantText_eq first holds, constantText_eq second holds', texts⟩
  case elements =>
    intro index index' holds holds'
    obtain ⟨a, described, printed⟩ := describeConstant_eq first holds
    obtain ⟨b, described', printed'⟩ := describeConstant_eq second holds'
    exact ⟨a, b, described, described', by rw [printed, printed', texts]⟩
  case lines =>
    intro entry entry' className name modifiers m m' has has' described described' same
    obtain ⟨uses, rfl⟩ := has.captured first described
    obtain ⟨others, rfl⟩ := has'.captured second described'
    exact texts.1 (String.ofList_inj.1 (constant_eq_of_formatMember same))

/-- A letter and a quote in two class files. -/
theorem constants_toldApart_quote :
    constantText [some (.integer 65)] "char".toList 1 ≠ constantText [some (.integer 39)] "char".toList 1 := by
  have first : ConstantType.char.Valid (.integer 65) := ⟨by decide, by decide⟩
  have second : ConstantType.char.Valid (.integer 39) := ⟨by decide, by decide⟩
  obtain ⟨fields, -, -⟩ := constants_toldApart first second [some (.integer 65)] [some (.integer 39)]
  obtain ⟨s, t, written, written', toldApart⟩ := fields 1 1 rfl rfl
  intro same
  have texts : s = t := Except.ok.inj (written.symm.trans (same.trans written'))
  rcases toldApart.1 texts with equal | ⟨half, -⟩
  · revert equal
    decide
  · revert half
    unfold ConstantType.Replaced
    decide

/-- Half of a pair is written like the replacement character, as the constant of a field and as the value of an
annotation. -/
theorem replaced_notToldApart :
    ConstantType.char.Valid (.integer 0xD800) ∧ ConstantType.char.Valid (.integer 0xFFFD) ∧
      ConstantValue.integer 0xD800 ≠ .integer 0xFFFD ∧
      constantText [some (.integer 0xD800)] "char".toList 1 = .ok "'\\ufffd'".toList ∧
      constantText [some (.integer 0xFFFD)] "char".toList 1 = .ok "'\\ufffd'".toList ∧
      describeConstant [some (.integer 0xD800)] 'C'.toUInt8 1 = .ok ("char", .literal "'\\ufffd'") ∧
      describeConstant [some (.integer 0xFFFD)] 'C'.toUInt8 1 = .ok ("char", .literal "'\\ufffd'") :=
  ⟨⟨by decide, by decide⟩, ⟨by decide, by decide⟩, by decide, by decide, by decide, rfl, rfl⟩

end ClassFile

end ApiSurface
