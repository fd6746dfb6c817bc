import ApiSurface.Proofs.Legacy.Tokens

/-!
Lines of the oldest format. Each rule turns a line into a spelling that the rules after it still cut at the
same places, and the reader takes them back the other way round. Main statements: lines of fields, methods and
constructors without generics are read back from the oldest spelling (`LegacyRule.transparent_oldField`,
`LegacyRule.transparent_oldMethod`, `LegacyRule.transparent_oldConstructor`), hence what is kept of a class of
source without generics is (`ClassDescription.SourceClass.spelled_oldest`).
-/

namespace ApiSurface

open ApiSurface.Text ApiSurface.Line ApiSurface.Legacy ClassDescription

namespace LegacyRule

variable {className : String} {set : Modifiers} {line : List Char} {type name : List Char}
  {us more : List (List Char)}

/-! ### One rule after another -/

/-- A line that each rule in turn spells differently, and takes back. -/
theorem Transparent.of_steps {valued renamed old : List Char} (values : encodeField line = .ok valued)
    (names : renameConstructor (simpleName className).toList initName valued = .ok renamed)
    (types : changeTypes arrayToDescriptor renamed = .ok old) (typesBack : changeTypes arrayToSource old = .ok renamed)
    (namesBack : renameConstructor initName (simpleName className).toList renamed = .ok valued)
    (valuesBack : decodeField valued = .ok line) (noSuper : LineKind.of old ≠ .member .superclass)
    (kind : LineKind.of old = LineKind.of line) (single : SingleLine old) :
    Transparent Format.v21.rules className line := by
  have noNull : old ≠ nullSuperLine.toList := by
    rintro rfl
    exact noSuper (by decide)
  refine .of_encoded ?_ ?_ kind single
  · simp only [Format.v21, Format.of, encodeAll, encode, values, names, types]
  · simp only [Format.v21, Format.of, decodeAll, decode, if_neg noNull, typesBack, namesBack, valuesBack, map_ok]

theorem map_arrayToSource (each : ∀ u ∈ us, HasDescriptor u) :
    (us.map arrayToDescriptor).map arrayToSource = us := by
  rw [List.map_map]
  exact (List.map_congr_left fun u mem => (each u mem).back).trans (List.map_id _)

theorem oldType_of_mem_map {u : List Char} (each : ∀ u ∈ us, HasDescriptor u) (mem : u ∈ us.map arrayToDescriptor) :
    IsOldType u := by
  obtain ⟨t, inTypes, rfl⟩ := List.mem_map.1 mem
  exact (each t inTypes).descriptor

theorem singleLine_callToken (named : SingleLine name) (each : ∀ u ∈ us, IsOldType u) :
    SingleLine (callToken name (join [','] us)) := by
  have list : SingleLine (join [','] us) := .join (by decide) fun u mem => (each u mem).singleLine
  simpa [callToken] using ⟨named, list⟩

/-! ### Methods and constructors -/

/-- The line of a method without type parameters is read back from the oldest spelling. -/
theorem transparent_oldMethod (typed : HasDescriptor type) (word : NotKeyword type) (named : IsIdentifier name)
    (each : ∀ u ∈ us, HasDescriptor u) (clear : ∀ u ∈ more, Clear legacyBrackets [' '] u)
    (single : ∀ u ∈ more, SingleLine u) :
    Transparent Format.v21.rules className
      (tokenLine .method set (type :: callToken name (join [','] us) :: more)) := by
  have token := named.oldToken.1.clear
  have free : '(' ∉ name := fun mem => absurd (named.parts _ mem) (by decide)
  have types : changeTypes arrayToDescriptor (tokenLine .method set (type :: callToken name (join [','] us) :: more)) =
      .ok (tokenLine .method set
        (arrayToDescriptor type :: callToken name (join [','] (us.map arrayToDescriptor)) :: more)) :=
    changeTypes_method typed.source word token free (fun u mem => (each u mem).source) clear
  have back : changeTypes arrayToSource (tokenLine .method set
      (arrayToDescriptor type :: callToken name (join [','] (us.map arrayToDescriptor)) :: more)) =
        .ok (tokenLine .method set (arrayToSource (arrayToDescriptor type) ::
          callToken name (join [','] ((us.map arrayToDescriptor).map arrayToSource)) :: more)) :=
    changeTypes_method typed.descriptor (notKeyword_arrayToDescriptor word) token free
      (fun u mem => oldType_of_mem_map each mem) clear
  rw [typed.back, map_arrayToSource each] at back
  refine .of_steps (encodeField_eq_self (kind_tokenLine_ne (by decide)))
    (renameConstructor_eq_self (kind_tokenLine_ne (by decide)) _ _) types back
    (renameConstructor_eq_self (kind_tokenLine_ne (by decide)) _ _)
    (decodeField_eq_self (kind_tokenLine_ne (by decide))) (kind_tokenLine_ne (by decide))
    (by rw [kind_tokenLine, kind_tokenLine]) (singleLine_tokenLine.2 fun u mem => ?_)
  simp only [List.mem_cons] at mem
  rcases mem with rfl | rfl | mem
  · exact typed.descriptor.singleLine
  · exact singleLine_callToken named.plain.2.2.2.2 fun u mem => oldType_of_mem_map each mem
  · exact single u mem

/-- The line of a constructor without type parameters is read back from the oldest spelling, whatever it is
called. -/
theorem transparent_oldConstructor (simple : '(' ∉ (simpleName className).toList) (named : IsIdentifier name)
    (each : ∀ u ∈ us, HasDescriptor u) (clear : ∀ u ∈ more, Clear legacyBrackets [' '] u)
    (single : ∀ u ∈ more, SingleLine u) :
    Transparent Format.v21.rules className (tokenLine .constructor set (callToken name (join [','] us) :: more)) := by
  have free : '(' ∉ name := fun mem => absurd (named.parts _ mem) (by decide)
  have noInit : name ≠ initName := by
    rintro rfl
    exact absurd (named.parts '<' (by decide)) (by decide)
  let old := if name = (simpleName className).toList then initName else name
  have spelled : Clear legacyBrackets [' '] old ∧ '(' ∉ old ∧ SingleLine old := by
    by_cases same : name = (simpleName className).toList
    · simp only [old, if_pos same]
      exact ⟨by unfold Clear; decide, by decide, by decide⟩
    · simp only [old, if_neg same]
      exact ⟨named.oldToken.1.clear, free, named.plain.2.2.2.2⟩
  have again : (if old = initName then (simpleName className).toList else old) = name := by
    by_cases same : name = (simpleName className).toList
    · simp only [old, if_pos same, if_true, same]
    · simp only [old, if_neg same, if_neg noInit]
  have source : ∀ u ∈ us, IsOldType u := fun u mem => (each u mem).source
  have names : renameConstructor (simpleName className).toList initName
      (tokenLine .constructor set (callToken name (join [','] us) :: more)) =
        .ok (tokenLine .constructor set (callToken old (join [','] us) :: more)) :=
    renameConstructor_tokenLine named.oldToken.1.clear free simple source clear initName
  have namesBack : renameConstructor initName (simpleName className).toList
      (tokenLine .constructor set (callToken old (join [','] us) :: more)) =
        .ok (tokenLine .constructor set (callToken
          (if old = initName then (simpleName className).toList else old) (join [','] us) :: more)) :=
    renameConstructor_tokenLine spelled.1 spelled.2.1 (by decide) source clear _
  rw [again] at namesBack
  have types : changeTypes arrayToDescriptor (tokenLine .constructor set (callToken old (join [','] us) :: more)) =
      .ok (tokenLine .constructor set (callToken old (join [','] (us.map arrayToDescriptor)) :: more)) :=
    changeTypes_constructor spelled.1 spelled.2.1 source clear
  have typesBack : changeTypes arrayToSource
      (tokenLine .constructor set (callToken old (join [','] (us.map arrayToDescriptor)) :: more)) =
        .ok (tokenLine .constructor set
          (callToken old (join [','] ((us.map arrayToDescriptor).map arrayToSource)) :: more)) :=
    changeTypes_constructor spelled.1 spelled.2.1 (fun u mem => oldType_of_mem_map each mem) clear
  rw [map_arrayToSource each] at typesBack
  refine .of_steps (encodeField_eq_self (kind_tokenLine_ne (by decide))) names types typesBack namesBack
    (decodeField_eq_self (kind_tokenLine_ne (by decide))) (kind_tokenLine_ne (by decide))
    (by rw [kind_tokenLine, kind_tokenLine]) (singleLine_tokenLine.2 fun u mem => ?_)
  rcases List.mem_cons.1 mem with rfl | mem
  · exact singleLine_callToken spelled.2.2 fun u mem => oldType_of_mem_map each mem
  · exact single u mem

/-! ### Fields -/

/-- A field whose constant is in its old spelling has its type in the old spelling as well. -/
theorem transparent_of_oldValue (values : encodeField line = .ok (tokenLine .field set (type :: more)))
    (valuesBack : decodeField (tokenLine .field set (type :: more)) = .ok line)
    (kind : LineKind.of line = .member .field) (typed : HasDescriptor type) (word : NotKeyword type)
    (clear : ∀ u ∈ more, Clear legacyBrackets [' '] u) (single : ∀ u ∈ more, SingleLine u) :
    Transparent Format.v21.rules className line := by
  have types : changeTypes arrayToDescriptor (tokenLine .field set (type :: more)) =
      .ok (tokenLine .field set (arrayToDescriptor type :: more)) :=
    changeTypes_field typed.source word clear
  have back : changeTypes arrayToSource (tokenLine .field set (arrayToDescriptor type :: more)) =
      .ok (tokenLine .field set (arrayToSource (arrayToDescriptor type) :: more)) :=
    changeTypes_field typed.descriptor (notKeyword_arrayToDescriptor word) clear
  rw [typed.back] at back
  refine .of_steps values (renameConstructor_eq_self (kind_tokenLine_ne (by decide)) _ _) types back
    (renameConstructor_eq_self (kind_tokenLine_ne (by decide)) _ _) valuesBack (kind_tokenLine_ne (by decide))
    (by rw [kind_tokenLine, kind]) (singleLine_tokenLine.2 fun u mem => ?_)
  rcases List.mem_cons.1 mem with rfl | mem
  · exact typed.descriptor.singleLine
  · exact single u mem

theorem declaration_eq_tokenLine (set : Modifiers) (type name : List Char) :
    declaration set type name = tokenLine .field set [type, name] :=
  (tokenLine_eq .field set [type, name]).symm

/-- A constant in its old spelling stands in two tokens, unless it holds spaces. -/
theorem fieldLine_eq_tokenLine (set : Modifiers) (type name value : List Char) :
    fieldLine set type name Legacy.constantMark value =
      tokenLine .field set ([type, name] ++ ["<constant>".toList, "<value=\"".toList ++ value]) := by
  have mark : Legacy.constantMark = ' ' :: ("<constant>".toList ++ ' ' :: "<value=\"".toList) := by decide
  simp only [fieldLine, declaration, tokenLine_eq, mark, spaced_append, spaced_cons, spaced_nil, List.append_assoc,
    List.cons_append, List.nil_append, List.append_nil]

/-- An old constant leaves nothing open, whatever text it spells, and nothing in it ends a token. -/
theorem clear_oldValue {constant stops : List Char} (literal : Literal.IsPlainLiteralOf type constant)
    (free : '<' ∉ stops) :
    Clear legacyBrackets stops ("<value=\"".toList ++ (Literal.encodeConstant type constant ++ constantEnd)) := by
  have quoted : Clear legacyBrackets [] ('"' :: Literal.encodeConstant type constant ++ ['"']) :=
    clear_quoted (.inl rfl) (literal.throughQuote? []) (by decide)
  have lead : Clear legacyBrackets [] "value=".toList := clear_of_plain legacyBrackets_subset (by decide)
  have whole := (lead.append quoted).bracketed legacyBrackets_subset (by decide : '<' ∈ legacyBrackets) free
  simpa [closerOf, constantEnd] using whole

/-- The tokens of a line with an old constant, whatever text this spells. -/
theorem exists_oldValue_tokens {constant : List Char} (literal : Literal.IsPlainLiteralOf type constant)
    (set : Modifiers) (name : List Char) :
    ∃ us, fieldLine set type name Legacy.constantMark (Literal.encodeConstant type constant ++ constantEnd) =
        tokenLine .field set ([type, name] ++ us) ∧ ∀ u ∈ us, Clear legacyBrackets [' '] u := by
  have mark : Clear legacyBrackets [] "<constant>".toList := by
    unfold Clear
    decide
  have tail : ∀ u ∈ ["<constant>".toList,
      "<value=\"".toList ++ (Literal.encodeConstant type constant ++ constantEnd)], Clear legacyBrackets [] u :=
    List.forall_mem_cons.2 ⟨mark, List.forall_mem_singleton.2 (clear_oldValue literal List.not_mem_nil)⟩
  obtain ⟨us, same, clear⟩ := exists_spaced_clear tail
  exact ⟨us, (fieldLine_eq_tokenLine _ _ _ _).trans (tokenLine_append_congr same.symm), clear⟩

/-- The line of a field without generics is read back from the oldest spelling. -/
theorem transparent_oldField {m : Member} {type : String} {constant : Option String}
    (detail : m.detail = .field type constant) (sound : SoundField type.toList m.name.toList constant)
    (typed : HasDescriptor type.toList) (named : IsIdentifier m.name.toList)
    (literal : ∀ c ∈ constant, Literal.IsPlainLiteralOf type.toList c.toList)
    (single : SingleLine (formatMember .full .empty className m)) :
    Transparent Format.v21.rules className (formatMember .full .empty className m) := by
  have typeToken := typed.source.oldToken
  have noQuote : '"' ∉ type.toList ∧ '"' ∉ m.name.toList := ⟨typed.source.notMem (by decide), named.oldToken.2⟩
  have kind : LineKind.of (formatMember .full .empty className m) = .member .field := by
    rw [kind_formatMember, Member.kind, detail]
    rfl
  rw [formatMember_fullField detail sound] at single kind ⊢
  cases constant with
  | none =>
    have given : encodeField (declaration m.modifiers type.toList m.name.toList) =
        .ok (declaration m.modifiers type.toList m.name.toList) := encodeField_declaration sound
    have back : decodeField (declaration m.modifiers type.toList m.name.toList) =
        .ok (declaration m.modifiers type.toList m.name.toList) := decodeField_declaration noQuote
    rw [Option.elim_none] at single kind ⊢
    rw [declaration_eq_tokenLine] at single kind given back ⊢
    refine transparent_of_oldValue given back kind typed sound.typeWord (fun u mem => ?_) fun u mem =>
      singleLine_tokenLine.1 single u (List.mem_cons_of_mem _ mem)
    rw [List.mem_singleton.1 mem]
    exact named.oldToken.1.clear
  | some c =>
    rw [Option.elim_some] at single kind ⊢
    have value := literal c rfl
    let payload := Literal.encodeConstant type.toList c.toList ++ constantEnd
    obtain ⟨us, line, clear⟩ := exists_oldValue_tokens value m.modifiers m.name.toList
    have given : encodeField (fieldLine m.modifiers type.toList m.name.toList " = ".toList c.toList) =
        .ok (fieldLine m.modifiers type.toList m.name.toList Legacy.constantMark payload) :=
      encodeField_fieldLine sound typeToken named.oldToken.1
    have back : decodeField (fieldLine m.modifiers type.toList m.name.toList Legacy.constantMark payload) =
        .ok (fieldLine m.modifiers type.toList m.name.toList " = ".toList c.toList) :=
      decodeField_fieldLine sound.typeWord typeToken named.oldToken.1 noQuote value.toIsLiteralOf
    rw [line] at given back
    have oldSingle : SingleLine (fieldLine m.modifiers type.toList m.name.toList Legacy.constantMark payload) := by
      simp only [fieldLine, SingleLine.append_iff, payload] at single ⊢
      exact ⟨⟨single.1.1, by decide⟩, value.singleLine_encodeConstant single.2, by decide⟩
    rw [line] at oldSingle
    refine transparent_of_oldValue given back kind typed sound.typeWord (fun u mem => ?_) fun u mem =>
      singleLine_tokenLine.1 oldSingle u (List.mem_cons_of_mem _ mem)
    rcases List.mem_cons.1 mem with rfl | mem
    · exact named.oldToken.1.clear
    · exact clear u mem

end LegacyRule

/-! ### Kept members -/

/-- The default of a method. -/
def Detail.default? : Detail → Option String
  | .method _ _ _ _ default => default
  | .field .. | .constructor .. | .nested | .superclass | .superinterface _ => none

/-- What can stand behind the call of a method: exceptions and a default. -/
def tailTokens (exceptions : List String) (default : Option String) : List (List Char) :=
  throwsTokens .full .empty exceptions ++ (default.map fun value => defaultWord ++ ' ' :: value.toList).toList

theorem formatMember_fullMethod {m : Member} {result arguments : String} {exceptions : List String}
    {default : Option String} (detail : m.detail = .method none result arguments exceptions default)
    (filled : result.toList ≠ []) (className : String) :
    formatMember .full .empty className m = tokenLine .method m.modifiers
      ([result.toList, callToken m.name.toList arguments.toList] ++ tailTokens exceptions default) := by
  obtain ⟨declaring, name, set, uses, _⟩ := m
  subst detail
  have exceptions' (scope : Erasure) := filter_throws scope exceptions
  have default' := filter_default default
  rw [formatMember_full, tokenLine_eq, detailText, detailTokens]
  simp only [styled, LineStyle.full, if_true] at exceptions' default' ⊢
  rw [List.filter_append, List.filter_append, exceptions', default']
  simp [parametersToken, filled, callToken_ne_nil, Member.kind, Detail.kind, tailTokens, throwsTokens, styled,
    LineStyle.full]

theorem formatMember_fullConstructor {m : Member} {arguments : String} {exceptions : List String}
    (detail : m.detail = .constructor none arguments exceptions) (className : String) :
    formatMember .full .empty className m = tokenLine .constructor m.modifiers
      ([callToken m.name.toList arguments.toList] ++ tailTokens exceptions none) := by
  obtain ⟨declaring, name, set, uses, _⟩ := m
  subst detail
  have exceptions' (scope : Erasure) := filter_throws scope exceptions
  rw [formatMember_full, tokenLine_eq, detailText, detailTokens]
  simp only [styled, LineStyle.full, if_true] at exceptions' ⊢
  rw [List.filter_append, exceptions']
  simp [parametersToken, callToken_ne_nil, Member.kind, Detail.kind, tailTokens, throwsTokens, styled, LineStyle.full]

/-- Exceptions without arguments leave nothing open. -/
theorem clear_tailTokens {exceptions : List String} {default : Option String}
    (each : ∀ e ∈ exceptions, IsOldType e.toList) (value : ∀ text ∈ default, Clear legacyBrackets [] text.toList) :
    ∀ t ∈ tailTokens exceptions default, Clear legacyBrackets [] t := by
  have space : Clear legacyBrackets [] [' '] := clear_of_plain legacyBrackets_subset (by decide)
  have words : Clear legacyBrackets [] throwsWord ∧ Clear legacyBrackets [] defaultWord :=
    ⟨clear_of_plain legacyBrackets_subset (by decide), clear_of_plain legacyBrackets_subset (by decide)⟩
  intro t mem
  rcases List.mem_append.1 mem with mem | mem
  · have list : Clear legacyBrackets [] (join [','] (exceptions.map String.toList)) :=
      clear_join legacyBrackets_subset (by decide) (by decide) fun p inList => by
        obtain ⟨e, inExceptions, rfl⟩ := List.mem_map.1 inList
        exact (each e inExceptions).clear.of_subset (by decide)
    unfold throwsTokens at mem
    split at mem
    · cases mem
    · rw [List.mem_singleton.1 mem]
      exact words.1.append (space.append list)
  · simp only [Option.mem_toList, Option.map_eq_some_iff] at mem
    obtain ⟨text, given, rfl⟩ := mem
    exact words.2.append (space.append (value text given))

/-- Only a superclass of that name has the line that says that there is none. -/
theorem formatMember_ne_nullSuperLine {m : Member} (detail : m.detail = .superclass) (filled : m.name.toList ≠ [])
    (other : m.name ≠ "null") (className : String) :
    formatMember .full .empty className m ≠ nullSuperLine.toList := by
  obtain ⟨declaring, name, set, uses, _⟩ := m
  subst detail
  intro same
  have line : formatMember .full .empty className ⟨declaring, name, set, uses, .superclass⟩ =
      "SUPR".toList ++ spaced (keywordTokens set ++ [name.toList]) := by
    rw [formatMember_full, detailText, detailTokens, spaced_append]
    simp [styled, LineStyle.full, filled, Member.kind, Detail.kind, MemberKind.tag]
  rw [line, show nullSuperLine.toList = "SUPR".toList ++ ' ' :: "null".toList by decide] at same
  have tail := List.append_cancel_left same
  cases words : keywordTokens set with
  | nil =>
    rw [words, List.nil_append, spaced_cons, spaced_nil, List.append_nil] at tail
    exact other (String.toList_inj.1 (List.cons.inj tail).2)
  | cons word words' =>
    rw [words, List.cons_append, spaced_cons] at tail
    have space : ' ' ∈ word ++ spaced (words' ++ [name.toList]) := by simp
    rw [(List.cons.inj tail).2] at space
    exact absurd space (by decide)

section Kept

variable {active : Feature → Bool} {scope : Erasure}

theorem toList_keptType_plain (noGenerics : active .tigerInfo = false) (scope : Erasure) (text : String) :
    (keptType active scope text).toList = scope.erase text.toList := by
  simp [keptType, noGenerics]

/-- Without generics every type is kept as one that has a descriptor. -/
theorem hasDescriptor_kept (noGenerics : active .tigerInfo = false) (sound : scope.Sound) {text : String}
    {t : JavaType} (legal : t.Legal) (same : text.toList = t.render) :
    HasDescriptor (keptType active scope text).toList := by
  rw [toList_keptType_plain noGenerics, same]
  exact .of_flat (sound.flat_erase legal)

theorem oldType_kept_exceptions (noGenerics : active .tigerInfo = false) (sound : scope.Sound)
    {exceptions : List String} (h : AreExceptions exceptions) :
    ∀ e ∈ exceptions.map (keptType active scope), IsOldType e.toList := by
  intro e mem
  obtain ⟨text, inExceptions, rfl⟩ := List.mem_map.1 mem
  obtain ⟨t, legal, same⟩ := h text inExceptions
  exact (hasDescriptor_kept noGenerics sound legal same).source

/-- Fields whose constants are literals of their types, with quotes in strings and characters only. -/
def HasPlainLiterals (ms : List Member) : Prop :=
  ∀ m ∈ ms, ∀ type constant, m.detail = .field type (some constant) →
    Literal.IsPlainLiteralOf type.toList constant.toList

theorem noCall_simpleName {name : String} (h : IsQualified name.toList) : '(' ∉ (simpleName name).toList :=
  fun mem => absurd (isNamePart_of_mem_simpleName h _ mem) (by decide)

variable {className : String} {n : Member}

/-- What is kept of a method without generics is read back from the oldest spelling. -/
theorem transparent_keptMethod (noGenerics : active .tigerInfo = false) (method : n.kind = .method)
    (shape : n.detail.WellFormed className n.name)
    (sound : (scope.nest (n.detail.typeParameters?.map String.toList)).Sound)
    (value : ∀ text ∈ n.detail.default?, Clear legacyBrackets [] text.toList)
    (single : SingleLine (formatMember .full .empty className (n.project active scope))) :
    LegacyRule.Transparent Format.v21.rules className
      (formatMember .full .empty className (n.project active scope)) := by
  obtain ⟨declaring, name, set, uses, detail⟩ := n
  cases detail with
  | method parameters result arguments exceptions default =>
    obtain ⟨-, ⟨t, legal, word, same⟩, identifier, given, thrown, -⟩ := shape
    let inner := scope.nest (parameters.map String.toList)
    have sound : inner.Sound := sound
    have value : ∀ text ∈ default, Clear legacyBrackets [] text.toList := value
    have detail : (Member.project active scope
        ⟨declaring, name, set, uses, .method parameters result arguments exceptions default⟩).detail =
          .method none (keptType active inner result) (keptType active inner arguments)
            (exceptions.map (keptType active inner)) default := by
      simp [Member.project, Detail.project, keptParameters, noGenerics, Detail.typeParameters?, inner]
    have typed : HasDescriptor (keptType active inner result).toList := hasDescriptor_kept noGenerics sound legal same
    obtain ⟨us, each, erased⟩ := exists_arguments_erase sound given
    obtain ⟨more, tail, clear⟩ := exists_spaced_clear
      (clear_tailTokens (oldType_kept_exceptions noGenerics sound thrown) value)
    have line := formatMember_fullMethod detail typed.source.filled className
    rw [tokenLine_append_congr tail.symm, toList_keptType_plain noGenerics inner arguments, erased] at line
    rw [line] at single ⊢
    exact LegacyRule.transparent_oldMethod typed (notKeyword_kept sound legal word same) identifier each clear
      fun u mem => singleLine_tokenLine.1 single u (List.mem_append_right _ mem)
  | superclass | superinterface | nested | field | constructor => cases method

/-- What is kept of a constructor without generics is read back from the oldest spelling. -/
theorem transparent_keptConstructor (noGenerics : active .tigerInfo = false) (constructor : n.kind = .constructor)
    (simple : '(' ∉ (simpleName className).toList) (shape : n.detail.WellFormed className n.name)
    (sound : (scope.nest (n.detail.typeParameters?.map String.toList)).Sound)
    (single : SingleLine (formatMember .full .empty className (n.project active scope))) :
    LegacyRule.Transparent Format.v21.rules className
      (formatMember .full .empty className (n.project active scope)) := by
  obtain ⟨declaring, name, set, uses, detail⟩ := n
  cases detail with
  | constructor parameters arguments exceptions =>
    obtain ⟨-, identifier, given, thrown⟩ := shape
    let inner := scope.nest (parameters.map String.toList)
    have sound : inner.Sound := sound
    have nothing : ∀ text ∈ (none : Option String), Clear legacyBrackets [] text.toList := by simp
    have detail : (Member.project active scope
        ⟨declaring, name, set, uses, .constructor parameters arguments exceptions⟩).detail =
          .constructor none (keptType active inner arguments) (exceptions.map (keptType active inner)) := by
      simp [Member.project, Detail.project, keptParameters, noGenerics, Detail.typeParameters?, inner]
    obtain ⟨us, each, erased⟩ := exists_arguments_erase sound given
    obtain ⟨more, tail, clear⟩ := exists_spaced_clear
      (clear_tailTokens (oldType_kept_exceptions noGenerics sound thrown) nothing)
    have line := formatMember_fullConstructor detail className
    rw [tokenLine_append_congr tail.symm, toList_keptType_plain noGenerics inner arguments, erased] at line
    rw [line] at single ⊢
    exact LegacyRule.transparent_oldConstructor simple identifier each clear
      fun u mem => singleLine_tokenLine.1 single u (List.mem_append_right _ mem)
  | superclass | superinterface | nested | field | method => cases constructor

/-- What is kept of a class of source without generics is read back from the oldest spelling. -/
theorem ClassDescription.SourceClass.spelled_oldest {c : ClassDescription} (h : c.SourceClass)
    (noModule : c.moduleInfo = none) (noGenerics : active .tigerInfo = false)
    (literals : HasPlainLiterals ((c.project active).members .field))
    (superclass : ∀ m ∈ (c.project active).members .superclass, m.name ≠ "null")
    (defaults : ∀ m ∈ c.declared .method, ∀ text ∈ m.detail.default?, Clear legacyBrackets [] text.toList) :
    (c.project active).Spelled Format.v21.rules := by
  intro kind m mem
  change LegacyRule.Transparent _ c.name (formatMember .full .empty c.name m)
  have whole : (c.project active).Printable := h.printable noModule
  have printable := whole.members kind m mem
  have sound := printable.sound
  have single : SingleLine (formatMember .full .empty c.name m) :=
    singleLine_formatMember printable.sound printable.singleLine .empty
  have listed := kind_formatMember .empty c.name m
  rw [printable.kind] at listed
  have kept := mem
  rw [members_project] at mem
  obtain ⟨n, declared, rfl⟩ := List.mem_map.1 mem
  obtain ⟨filed, shape, -⟩ := h.members kind n declared
  have inner := h.inner declared
  cases kind with
  | method => exact transparent_keptMethod noGenerics filed shape inner (defaults n declared) single
  | constructor =>
    exact transparent_keptConstructor noGenerics filed (noCall_simpleName h.name.1) shape inner single
  | field =>
    obtain ⟨declaring, name, set, uses, detail⟩ := n
    cases detail with
    | field type constant =>
      obtain ⟨⟨t, legal, -, same⟩, identifier, -⟩ := shape
      exact LegacyRule.transparent_oldField rfl sound (hasDescriptor_kept noGenerics inner legal same) identifier
        (fun value given => literals _ kept _ value (congrArg _ given)) single
    | superclass | superinterface | nested | method | constructor => cases filed
  | superclass =>
    obtain ⟨declaring, name, set, uses, detail⟩ := n
    cases detail with
    | superclass =>
      exact .of_kind (by simp [listed, LegacyRule.Untouched])
        (formatMember_ne_nullSuperLine rfl sound.1.filled (superclass _ kept) c.name) single _ _
    | superinterface | nested | field | method | constructor => cases filed
  | superinterface | nested =>
    refine .of_kind (by simp [listed, LegacyRule.Untouched]) (fun same => ?_) single _ _
    rw [same] at listed
    exact absurd listed (by decide)

end Kept

end ApiSurface
