import ApiSurface.Proofs.SignatureFile.Spelling

/-!
Lines of classes of source in old spellings. Names and types, with and without arguments, are tokens of old
lines. Main statement: what is kept of a class whose constants are literals of their fields is read back when
constants alone have old spellings (`SourceClass.spelled_constants`).
-/

namespace ApiSurface

open ApiSurface.Text ApiSurface.Line ApiSurface.Legacy ClassDescription

/-! ### Tokens -/

theorem Renders.oldToken {t e : List Char} (h : Renders [' ', ','] t e) (filled : t ≠ []) : IsOldToken t :=
  ⟨filled, (h.clearIn legacyBrackets legacyBrackets_subset (by decide)).of_subset (by decide)⟩

theorem IsFlat.oldToken {t : List Char} (h : IsFlat t) : IsOldToken t := by
  refine ⟨h.filled, clear_of_still fun c mem => ?_⟩
  have char := h.chars c mem
  simp only [isTypeChar, Bool.or_eq_true, List.contains_iff_mem] at char
  rcases char with part | other
  · have apart := notMem_of_isNamePart part
    exact ⟨fun space => apart.2 (List.mem_of_mem_take (i := 1) space),
      Nesting.step_of_notMem_marks legacyBrackets_subset rfl apart.1⟩
  · have still : ∀ d ∈ ['.', '[', ']', ','], d ∉ [' '] ∧ Nesting.top.step legacyBrackets d = .ok .top := by decide
    exact still c other

theorem IsIdentifier.oldToken {t : List Char} (h : IsIdentifier t) : IsOldToken t ∧ '"' ∉ t := by
  refine ⟨(renders_identifier h).oldToken h.filled, fun mem => ?_⟩
  have part := h.parts '"' mem
  revert part
  decide

/-- A type is kept as a token of old lines, and holds no quotes. -/
theorem oldToken_kept {active : Feature → Bool} {scope : Erasure} (sound : scope.Sound) {text : String} {t : JavaType}
    (h : t.Legal) (same : text.toList = t.render) :
    IsOldToken (keptType active scope text).toList ∧ '"' ∉ (keptType active scope text).toList := by
  unfold keptType
  split
  · rw [same]
    refine ⟨h.renders.oldToken (render_ne_nil h), fun mem => ?_⟩
    have char := h.renders.chars '"' mem
    revert char
    decide
  · rw [String.toList_ofList, same]
    have flat := sound.flat_erase h
    refine ⟨flat.oldToken, fun mem => ?_⟩
    have char := flat.chars '"' mem
    revert char
    decide

/-! ### Fields -/

/-- Fields whose constants are literals of their types. -/
def HasLiterals (ms : List Member) : Prop :=
  ∀ m ∈ ms, ∀ type constant, m.detail = .field type (some constant) →
    Literal.IsLiteralOf type.toList constant.toList

/-- The line of a field is its declaration with the constant behind it, if there is one. -/
theorem formatMember_fullField {m : Member} {type : String} {constant : Option String}
    (detail : m.detail = .field type constant) (sound : SoundField type.toList m.name.toList constant)
    (className : String) :
    formatMember .full .empty className m =
      constant.elim (declaration m.modifiers type.toList m.name.toList) fun c =>
        fieldLine m.modifiers type.toList m.name.toList " = ".toList c.toList := by
  obtain ⟨declaring, name, set, uses, _⟩ := m
  subst detail
  rw [formatMember_full]
  cases constant <;>
    simp [detailText, detailTokens, styled, LineStyle.full, sound.typeToken.filled, sound.nameToken.filled,
      Member.kind, Detail.kind, declaration, fieldLine]

/-- The line of a field is read back from its old spelling, whatever text its constant is. -/
theorem transparent_field {m : Member} {type : String} {constant : Option String} {className : String}
    (detail : m.detail = .field type constant) (sound : SoundField type.toList m.name.toList constant)
    (typed : IsOldToken type.toList ∧ '"' ∉ type.toList) (named : IsOldToken m.name.toList ∧ '"' ∉ m.name.toList)
    (literal : ∀ c ∈ constant, Literal.IsLiteralOf type.toList c.toList)
    (single : SingleLine (formatMember .full .empty className m)) :
    LegacyRule.Transparent [.encodedConstants] className (formatMember .full .empty className m) := by
  rw [formatMember_fullField detail sound] at single ⊢
  cases constant with
  | none =>
    rw [Option.elim_none] at single ⊢
    refine .of_encoded (encodeField_declaration sound) ?_ rfl single
    simp only [LegacyRule.decodeAll, LegacyRule.decode, decodeField_declaration ⟨typed.2, named.2⟩, map_ok]
  | some c =>
    rw [Option.elim_some] at single ⊢
    have value := literal c rfl
    refine .of_encoded (encodeField_fieldLine sound typed.1 named.1) ?_ ?_ ?_
    · simp only [LegacyRule.decodeAll, LegacyRule.decode,
        decodeField_fieldLine sound.typeWord typed.1 named.1 ⟨typed.2, named.2⟩ value, map_ok]
    · rw [kind_fieldLine, kind_fieldLine]
    · simp only [fieldLine, SingleLine.append_iff] at single ⊢
      exact ⟨⟨single.1.1, by decide⟩, value.singleLine_encodeConstant single.2, by decide⟩

/-- What is kept of a class is read back when constants alone have old spellings. -/
theorem ClassDescription.SourceClass.spelled_constants {c : ClassDescription} (h : c.SourceClass)
    (noModule : c.moduleInfo = none) {active : Feature → Bool}
    (literals : HasLiterals ((c.project active).members .field)) :
    (c.project active).Spelled [.encodedConstants] := by
  intro kind m mem
  change LegacyRule.Transparent _ c.name (formatMember .full .empty c.name m)
  have whole : (c.project active).Printable := h.printable noModule
  have printable := whole.members kind m mem
  have single := singleLine_formatMember printable.sound printable.singleLine .empty
  have listed := kind_formatMember .empty c.name m
  cases detail : m.detail with
  | field type constant =>
    obtain rfl : kind = .field := by rw [← printable.kind, Member.kind, detail]; rfl
    have sound := printable.sound
    rw [detail] at sound
    have kept : (IsOldToken type.toList ∧ '"' ∉ type.toList) ∧ IsOldToken m.name.toList ∧ '"' ∉ m.name.toList := by
      rw [members_project] at mem
      obtain ⟨n, declared, rfl⟩ := List.mem_map.1 mem
      obtain ⟨-, shape, -⟩ := h.members .field n declared
      have inner := h.inner declared
      cases source : n.detail <;> simp only [Member.project, source, Detail.project, reduceCtorEq] at detail
      rename_i sourceType _
      obtain ⟨rfl, -⟩ := Detail.field.inj detail
      rw [source] at shape inner
      obtain ⟨⟨t, legal, -, same⟩, identifier, -⟩ := shape
      have name : (n.project active c.scope).name = n.name := by simp [Member.project, source, Detail.keptName]
      rw [name]
      exact ⟨oldToken_kept inner legal same, identifier.oldToken⟩
    exact transparent_field detail sound kept.1 kept.2 (fun k given => literals m mem type k (given ▸ detail)) single
  | superclass | superinterface | nested | method | constructor =>
    have other : LineKind.of (formatMember .full .empty c.name m) ≠ .member .field := by
      rw [listed, Member.kind, detail]
      simp [Detail.kind]
    refine .of_encoded (LegacyRule.encodeField_eq_self other) ?_ rfl single
    simp only [LegacyRule.decodeAll, LegacyRule.decode, LegacyRule.decodeField_eq_self other, map_ok]

end ApiSurface
