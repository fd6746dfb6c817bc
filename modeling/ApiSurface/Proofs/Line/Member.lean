import ApiSurface.Line.Member
import ApiSurface.Proofs.Line.Token
import ApiSurface.Proofs.Result
import ApiSurface.Proofs.Text.Items

/-!
Member lines written and read. The reader is lenient, but what it makes of a line always has one shape:
the parts are tokens, the first of them is no keyword, and lists are told from names. Main statements: a
member of that shape is read back from its line (`parseMember_formatMember`), and every line that can be
read gives such a member (`readMember_of_parseMember`).
-/

namespace ApiSurface

open ApiSurface.Text

/-- The style that leaves nothing out. -/
def LineStyle.full : LineStyle := ⟨true, true⟩

namespace Line

/-! ### The shape of members -/

/-- Exceptions that a line gives back as they are. -/
def SoundThrows (exceptions : List String) : Prop :=
  ∀ e ∈ exceptions, IsItem brackets e.toList ∧ Clear brackets [' '] e.toList

/-- A default that a line gives back as it is. -/
structure SoundDefault (value : List Char) : Prop where
  filled : value ≠ []
  starts : ∀ c ∈ value.head?, c ≠ ' '
  ends : ∀ c ∈ value.getLast?, isBlank c = false

/-- A name and arguments that are told apart again. -/
structure SoundCall (name arguments : List Char) : Prop where
  named : name ≠ []
  free : '(' ∉ name
  token : IsToken (callToken name arguments)

/-- Type parameters, or none, in front of this token. -/
def SoundParameters (isList : List Char → Bool) (parameters : Option String) (next : List Char) : Prop :=
  match parameters with
  | none => isList next = false ∧ NotKeyword next
  | some list => IsToken list.toList ∧ isList list.toList = true ∧ NotKeyword list.toList

/-- What stands between a declaration of a field and its constant. -/
def constantMark : List Char := [' ', '=', ' ']

theorem toList_constantMark : " = ".toList = constantMark := by decide

/-- A type and a name that no constant is taken out of. -/
structure SoundField (type name : List Char) (constant : Option String) : Prop where
  typeToken : IsToken type
  typeWord : NotKeyword type
  typeWhole : ¬constantMark <:+: type
  typeNoMark : type ≠ ['=']
  nameToken : IsToken name
  nameWhole : ¬constantMark <:+: name
  nameNoMark : constant.isSome → name ≠ ['=']

/-- Details that a line of a class of this name gives back, together with the name. -/
def SoundDetail (className name : String) : Detail → Prop
  | .superclass => IsToken name.toList ∧ NotKeyword name.toList
  | .superinterface direct => direct = true ∧ IsToken name.toList ∧ NotKeyword name.toList
  | .nested =>
    ∃ simple, name = className ++ "$" ++ String.ofList simple ∧ IsToken simple ∧ NotKeyword simple
  | .field type constant => SoundField type.toList name.toList constant
  | .method parameters result arguments exceptions default =>
    SoundParameters (['<'].isPrefixOf ·) parameters result.toList ∧ IsToken result.toList ∧
      SoundCall name.toList arguments.toList ∧ SoundThrows exceptions ∧
      ∀ value ∈ default, SoundDefault value.toList
  | .constructor parameters arguments exceptions =>
    SoundParameters listsParameters parameters (callToken name.toList arguments.toList) ∧
      SoundCall name.toList arguments.toList ∧ SoundThrows exceptions

/-! ### Reading what was written -/

theorem splitCall_callToken {name arguments : List Char} (h : SoundCall name arguments) (line : List Char) :
    splitCall line (callToken name arguments) = .ok (name, arguments) := by
  have cut : cutAt? ['('] (callToken name arguments) = some (name, arguments ++ [')']) := by
    simpa [callToken] using cutAt?_singleton h.free
  have close : beforeTail? [')'] (arguments ++ [')']) = some arguments := beforeTail?_append arguments [')']
  simp [splitCall, cut, close, h.named]

theorem isToken_throwsWord : IsToken throwsWord :=
  ⟨by decide, clear_of_plain (List.Subset.refl _) (by decide)⟩

theorem isToken_defaultWord : IsToken defaultWord :=
  ⟨by decide, clear_of_plain (List.Subset.refl _) (by decide)⟩

theorem isToken_tag (kind : MemberKind) : IsToken kind.tag.toList := by
  have plain : kind.tag.toList ≠ [] ∧ ∀ c ∈ kind.tag.toList, c ∉ marks ∧ c ∉ [' '] := by
    cases kind <;> decide
  exact ⟨plain.1, clear_of_plain (List.Subset.refl _) plain.2⟩

/-- A list of exceptions is one token. -/
theorem SoundThrows.isToken {exceptions : List String} (h : SoundThrows exceptions)
    (filled : exceptions ≠ []) : IsToken (join [','] (exceptions.map String.toList)) := by
  constructor
  · cases exceptions with
    | nil => exact absurd rfl filled
    | cons e es =>
      have first := (h e (by simp)).1.filled
      cases es <;> simp [first]
  · refine clear_join (List.Subset.refl _) (by decide) (by decide) fun p mem => ?_
    obtain ⟨e, inList, rfl⟩ := List.mem_map.1 mem
    exact (h e inList).2

/-- Exceptions are read back, in front of something else. -/
theorem throws_spaced {exceptions : List String} (h : SoundThrows exceptions) (line : List Char)
    (scope : Erasure) {rest behind : List Char} {next : Option (List Char)}
    (ends : AtSpace rest) (taken : token? line rest = .ok (next, behind)) (other : next ≠ some throwsWord) :
    throws line (spaced (throwsTokens .full scope exceptions) ++ rest) = .ok (exceptions, rest) := by
  by_cases filled : exceptions = []
  · subst filled
    simp [throws, throwsTokens, taken, other]
  · have listed := h.isToken filled
    have lead : spaced (throwsTokens .full scope exceptions) ++ rest =
        ' ' :: (throwsWord ++ ' ' :: (join [','] (exceptions.map String.toList) ++ rest)) := by
      simp [throwsTokens, filled, styled, LineStyle.full]
    have word := token?_space isToken_throwsWord line
      (atSpace_cons (join [','] (exceptions.map String.toList) ++ rest))
    have list := token_space listed line "throws list" ends
    have read : items brackets (join [','] (exceptions.map String.toList)) =
        .ok (exceptions.map String.toList) := by
      refine items_join fun t mem => ?_
      obtain ⟨e, inList, rfl⟩ := List.mem_map.1 mem
      exact (h e inList).1
    have back : (exceptions.map String.toList).map String.ofList = exceptions := by
      simp [Function.comp_def]
    rw [lead]
    simp [throws, word, list, liftBrackets, read, back]

@[simp] theorem finish_nil (line : List Char) : finish line [] = .ok () := by simp [finish]

/-- A default is read back. -/
theorem default?_spaced {default : Option String} (h : ∀ value ∈ default, SoundDefault value.toList)
    (line : List Char) :
    default? line (spaced (default.map fun value => defaultWord ++ ' ' :: value.toList).toList) =
      .ok default := by
  cases default with
  | none => simp [default?]
  | some value =>
    have sound := h value rfl
    have word := token?_space isToken_defaultWord line (atSpace_cons value.toList)
    have kept : trimEnd (dropSpaces value.toList) = value.toList := by
      rw [dropSpaces_of_head sound.starts, trimEnd_eq_self sound.ends]
    simp [default?, word, kept, sound.filled]

/-! ### Fields -/

/-- A mark in a text with a space inside is in the part before, in the part from the space on, or its
end is that space. -/
theorem constantMark_infix_append {u v : List Char} (h : constantMark <:+: u ++ ' ' :: v) :
    constantMark <:+: u ∨ [' ', '='] <:+ u ∨ constantMark <:+: ' ' :: v := by
  induction u with
  | nil => exact .inr (.inr h)
  | cons c u ih =>
    rw [List.cons_append, List.infix_cons_iff] at h
    rcases h with lead | later
    · obtain ⟨rest, whole⟩ := lead
      cases u with
      | nil => simp [constantMark] at whole
      | cons d u =>
        cases u with
        | nil =>
          simp only [constantMark, List.cons_append, List.nil_append, List.cons.injEq] at whole
          obtain ⟨rfl, rfl, -⟩ := whole
          exact .inr (.inl (List.suffix_refl _))
        | cons e u =>
          simp only [constantMark, List.cons_append, List.nil_append, List.cons.injEq] at whole
          obtain ⟨rfl, rfl, rfl, -⟩ := whole
          exact .inl ⟨[], u, rfl⟩
    · rcases ih later with h | h | h
      · exact .inl (List.infix_cons_iff.2 (.inr h))
      · exact .inr (.inl (List.suffix_cons_iff.2 (.inr h)))
      · exact .inr (.inr h)

/-- No token ends with a space and an equals sign. -/
theorem IsToken.not_ends {t : List Char} (h : IsToken t) : ¬[' ', '='] <:+ t := by
  rintro ⟨front, rfl⟩
  have whole : Clear brackets [' '] ((front ++ [' ']) ++ ['=']) := by simpa using h.clear
  have cut : Clear brackets [' '] (front ++ [' ']) := whole.dropRight (by decide)
  exact cut.last_notMem (by decide) (by simp)

/-- No token begins with an equals sign and a space. -/
theorem IsToken.not_begins {t : List Char} (h : IsToken t) : ¬['=', ' '] <+: t := by
  rintro ⟨rest, rfl⟩
  have whole : Clear brackets [' '] (['='] ++ (' ' :: rest)) := by simpa using h.clear
  have cut : Clear brackets [' '] (' ' :: rest) := whole.dropLeft (List.Subset.refl _) (by decide)
  exact cut.head_notMem (by simp)

/-- In a line of tokens a mark is a token of its own. -/
theorem constantMark_not_inside_spaced {t : List Char} {ts : List (List Char)}
    (tokens : ∀ u ∈ t :: ts, IsToken u ∧ ¬constantMark <:+: u) (noMark : ∀ u ∈ ts.dropLast, u ≠ ['=']) :
    ¬constantMark <:+: t ++ spaced ts := by
  induction ts generalizing t with
  | nil => simpa using (tokens t (by simp)).2
  | cons u us ih =>
    intro h
    rw [spaced_cons] at h
    rcases constantMark_infix_append h with inside | ending | later
    · exact (tokens t (by simp)).2 inside
    · exact (tokens t (by simp)).1.not_ends ending
    · have token := (tokens u (by simp)).1
      rw [List.infix_cons_iff] at later
      rcases later with lead | later
      · obtain ⟨rest, whole⟩ := lead
        simp only [constantMark] at whole
        cases u with
        | nil => exact token.filled rfl
        | cons c u =>
          simp only [List.cons_append, List.nil_append, List.cons.injEq, true_and] at whole
          obtain ⟨rfl, whole⟩ := whole
          cases u with
          | nil =>
            cases us with
            | nil => simp at whole
            | cons w us => exact noMark ['='] (by simp) rfl
          | cons d u =>
            simp only [List.cons_append, List.cons.injEq] at whole
            obtain ⟨rfl, -⟩ := whole
            exact token.not_begins ⟨u, rfl⟩
      · refine ih (fun w mem => tokens w (List.mem_cons_of_mem t mem)) (fun w mem => noMark w ?_) later
        cases us with
        | nil => simp at mem
        | cons w us => simpa using .inr mem

theorem constantMark_not_inside {t : List Char} (free : '=' ∉ t) : ¬constantMark <:+: t :=
  fun h => free (h.subset (by simp [constantMark]))

theorem keywordTokens_spec {set : Modifiers} {t : List Char} (mem : t ∈ keywordTokens set) :
    IsToken t ∧ '=' ∉ t := by
  simp only [keywordTokens, Modifiers.keywords, List.mem_map, List.mem_filterMap] at mem
  obtain ⟨word, ⟨m, -, keyword⟩, rfl⟩ := mem
  refine ⟨isToken_keyword keyword, ?_⟩
  cases m <;> simp only [Modifier.keyword?, Option.some.injEq, reduceCtorEq] at keyword <;>
    subst keyword <;> decide

theorem isToken_equals : IsToken ['='] :=
  ⟨by decide, clear_of_plain (List.Subset.refl _) (by decide)⟩

/-- A declaration of a field has no mark of a constant in it, and none begins at its end. -/
theorem SoundField.declaration {type name : List Char} {constant : Option String}
    (h : SoundField type name constant) (set : Modifiers) :
    ¬constantMark <:+: MemberKind.field.tag.toList ++
      spaced (keywordTokens set ++ [type, name] ++ if constant.isSome then [['=']] else []) := by
  apply constantMark_not_inside_spaced
  · intro u mem
    simp only [List.mem_cons, List.mem_append, List.not_mem_nil, or_false] at mem
    rcases mem with rfl | (mem | rfl | rfl) | mem
    · exact ⟨isToken_tag .field, constantMark_not_inside (by decide)⟩
    · exact ⟨(keywordTokens_spec mem).1, constantMark_not_inside (keywordTokens_spec mem).2⟩
    · exact ⟨h.typeToken, h.typeWhole⟩
    · exact ⟨h.nameToken, h.nameWhole⟩
    · cases constant with
      | none => simp at mem
      | some c =>
        obtain rfl : u = ['='] := by simpa using mem
        exact ⟨isToken_equals, by decide⟩
  · have front : ∀ u ∈ keywordTokens set ++ [type], u ≠ ['='] := by
      intro u mem
      rcases List.mem_append.1 mem with mem | mem
      · rintro rfl
        exact (keywordTokens_spec mem).2 (by simp)
      · obtain rfl : u = type := by simpa using mem
        exact h.typeNoMark
    intro u mem
    cases constant with
    | none =>
      have cut : keywordTokens set ++ [type, name] ++ [] = (keywordTokens set ++ [type]) ++ [name] := by
        simp
      simp only [Option.isSome_none, Bool.false_eq_true, if_false] at mem
      rw [cut, List.dropLast_concat] at mem
      exact front u mem
    | some c =>
      have cut : keywordTokens set ++ [type, name] = (keywordTokens set ++ [type]) ++ [name] := by
        simp
      simp only [Option.isSome_some, if_true] at mem
      rw [List.dropLast_concat, cut] at mem
      rcases List.mem_append.1 mem with mem | mem
      · exact front u mem
      · obtain rfl : u = name := by simpa using mem
        exact h.nameNoMark rfl

/-- A declaration of a field is read back. -/
theorem declaration_spaced {type name : List Char} {constant : Option String}
    (h : SoundField type name constant) (set : Modifiers) (line : List Char) :
    token line MemberKind.field.tag (MemberKind.field.tag.toList ++
        spaced (keywordTokens set ++ [type, name])) =
      .ok (MemberKind.field.tag.toList, spaced (keywordTokens set ++ [type, name])) ∧
    modifiers line (spaced (keywordTokens set ++ [type, name])) =
      .ok (set.visible, spaced [type, name]) ∧
    token line "field type" (spaced [type, name]) = .ok (type, spaced [name]) ∧
    token line "field name" (spaced [name]) = .ok (name, []) := by
  have nameEnds : AtSpace (spaced [name]) := atSpace_cons _
  have typeNext := token?_space h.typeToken line nameEnds
  refine ⟨token_append (isToken_tag .field) line _ ?_, ?_, ?_, ?_⟩
  · simpa using atSpace_spaced_append (keywordTokens set ++ [type, name]) atSpace_nil
  · rw [spaced_append]
    exact modifiers_spaced set h.typeWord typeNext (atSpace_cons _)
  · exact token_space h.typeToken line _ nameEnds
  · exact token_space h.nameToken line _ atSpace_nil

/-- The rest of a field line is read back. -/
theorem fieldRest_spaced {type name : String} {constant : Option String}
    (h : SoundField type.toList name.toList constant) (set : Modifiers) :
    fieldRest (MemberKind.field.tag.toList ++ spaced (keywordTokens set ++ [type.toList, name.toList]) ++
        spaced (constant.map fun c => '=' :: ' ' :: c.toList).toList) =
      .ok (name, .field type constant) := by
  have clean := h.declaration set
  cases constant with
  | none =>
    simp only [Option.isSome_none, Bool.false_eq_true, if_false, List.append_nil] at clean
    have uncut := cutAt?_eq_none_iff.2 clean
    simp only [Option.map_none, Option.toList_none, spaced_nil, List.append_nil]
    rw [fieldRest, toList_constantMark, uncut]
    obtain ⟨first, second, third, fourth⟩ := declaration_spaced h set
      (MemberKind.field.tag.toList ++ spaced (keywordTokens set ++ [type.toList, name.toList]))
    simp only [first, second, third, fourth, ok_bind, token?_nil]
    simp
  | some c =>
    simp only [Option.isSome_some, if_true] at clean
    have cut : cutAt? constantMark (MemberKind.field.tag.toList ++
        spaced (keywordTokens set ++ [type.toList, name.toList]) ++
          spaced (Option.map (fun c => '=' :: ' ' :: c.toList) (some c)).toList) =
        some (MemberKind.field.tag.toList ++ spaced (keywordTokens set ++ [type.toList, name.toList]),
          c.toList) := by
      refine (cutAt?_eq_some_iff (by simp [constantMark])).2 ⟨by simp [constantMark], ?_⟩
      rw [spaced_append, ← List.append_assoc] at clean
      exact clean
    rw [fieldRest, toList_constantMark, cut]
    obtain ⟨first, second, third, fourth⟩ := declaration_spaced h set
      (MemberKind.field.tag.toList ++ spaced (keywordTokens set ++ [type.toList, name.toList]))
    simp only [first, second, third, fourth, ok_bind, token?_nil]
    simp

/-! ### Methods, constructors and names -/

theorem token_of_token? {line cs t rest : List Char} {what : String}
    (h : token? line cs = .ok (some t, rest)) : token line what cs = .ok (t, rest) := by
  simp [token, h]

/-- Type parameters, or none, are read back in front of the token that they belong to. -/
theorem typeParameters?_spaced {isList : List Char → Bool} {parameters : Option String}
    {next rest : List Char} (h : SoundParameters isList parameters next) (token : IsToken next)
    (ends : AtSpace rest) (line : List Char) (what : String) :
    ∃ t behind, NotKeyword t ∧
      token? line (spaced ((parameters.map String.toList).toList ++ [next]) ++ rest) =
        .ok (some t, behind) ∧
      typeParameters? line what isList t behind = .ok (parameters, next, rest) := by
  cases parameters with
  | none =>
    obtain ⟨noList, word⟩ := h
    refine ⟨next, rest, word, ?_, by simp [typeParameters?, noList]⟩
    simpa using token?_space token line ends
  | some list =>
    obtain ⟨listToken, isList, word⟩ := h
    refine ⟨list.toList, ' ' :: (next ++ rest), word, ?_, ?_⟩
    · simpa using token?_space listToken line (atSpace_cons (next ++ rest))
    · simp [typeParameters?, isList, token_space token line what ends]

theorem token?_default (default : Option String) (line : List Char) :
    ∃ next behind, next ≠ some throwsWord ∧
      token? line (spaced (default.map fun value => defaultWord ++ ' ' :: value.toList).toList) =
        .ok (next, behind) := by
  cases default with
  | none => exact ⟨none, [], by simp, token?_nil line⟩
  | some value =>
    refine ⟨some defaultWord, ' ' :: value.toList, by decide, ?_⟩
    simpa using token?_space isToken_defaultWord line (atSpace_cons value.toList)

/-- The rest of a method line is read back, and no keyword is in front of it. -/
theorem methodRest_spaced {parameters default : Option String} {result name arguments : String}
    {exceptions : List String}
    (listed : SoundParameters (['<'].isPrefixOf ·) parameters result.toList)
    (typed : IsToken result.toList) (call : SoundCall name.toList arguments.toList)
    (thrown : SoundThrows exceptions) (given : ∀ value ∈ default, SoundDefault value.toList)
    (scope : Erasure) (line : List Char) :
    let rest := spaced ((parameters.map String.toList).toList ++ [result.toList] ++
      [callToken name.toList arguments.toList] ++ throwsTokens .full scope exceptions ++
      (default.map fun value => defaultWord ++ ' ' :: value.toList).toList)
    (∃ t behind, NotKeyword t ∧ token? line rest = .ok (some t, behind)) ∧
      methodRest line rest = .ok (name, .method parameters result arguments exceptions default) := by
  intro rest
  have whole : rest = spaced ((parameters.map String.toList).toList ++ [result.toList]) ++
      (' ' :: (callToken name.toList arguments.toList ++ (spaced (throwsTokens .full scope exceptions) ++
        spaced (default.map fun value => defaultWord ++ ' ' :: value.toList).toList))) := by
    simp [rest]
  have defaultEnds : AtSpace (spaced (default.map fun value => defaultWord ++ ' ' :: value.toList).toList) := by
    simpa using atSpace_spaced_append (default.map fun value => defaultWord ++ ' ' :: value.toList).toList
      atSpace_nil
  have throwsEnds := atSpace_spaced_append (throwsTokens .full scope exceptions) defaultEnds
  obtain ⟨t, behind, word, first, parsed⟩ := typeParameters?_spaced listed typed
    (atSpace_cons (callToken name.toList arguments.toList ++ (spaced (throwsTokens .full scope exceptions) ++
        spaced (default.map fun value => defaultWord ++ ' ' :: value.toList).toList))) line "return type"
  rw [← whole] at first
  obtain ⟨next, after, other, taken⟩ := token?_default default line
  refine ⟨⟨t, behind, word, first⟩, ?_⟩
  simp only [methodRest, token_of_token? first, ok_bind, parsed,
    token_space call.token line "method name" throwsEnds, splitCall_callToken call,
    throws_spaced thrown line scope defaultEnds taken other, default?_spaced given,
    String.ofList_toList]
  rfl

/-- The rest of a constructor line is read back, and no keyword is in front of it. -/
theorem constructorRest_spaced {parameters : Option String} {name arguments : String}
    {exceptions : List String}
    (listed : SoundParameters listsParameters parameters (callToken name.toList arguments.toList))
    (call : SoundCall name.toList arguments.toList) (thrown : SoundThrows exceptions)
    (scope : Erasure) (line : List Char) :
    let rest := spaced ((parameters.map String.toList).toList ++
      [callToken name.toList arguments.toList] ++ throwsTokens .full scope exceptions)
    (∃ t behind, NotKeyword t ∧ token? line rest = .ok (some t, behind)) ∧
      constructorRest line rest = .ok (name, .constructor parameters arguments exceptions) := by
  intro rest
  have whole : rest = spaced ((parameters.map String.toList).toList ++
      [callToken name.toList arguments.toList]) ++ spaced (throwsTokens .full scope exceptions) := by
    simp [rest]
  have throwsEnds : AtSpace (spaced (throwsTokens .full scope exceptions)) := by
    simpa using atSpace_spaced_append (throwsTokens .full scope exceptions) atSpace_nil
  obtain ⟨t, behind, word, first, parsed⟩ := typeParameters?_spaced listed call.token throwsEnds line
    "constructor name"
  rw [← whole] at first
  have thrownBack := throws_spaced thrown line scope atSpace_nil (token?_nil line) (by simp)
  rw [List.append_nil] at thrownBack
  refine ⟨⟨t, behind, word, first⟩, ?_⟩
  simp only [constructorRest, token_of_token? first, ok_bind, parsed, splitCall_callToken call,
    thrownBack, finish_nil, String.ofList_toList]
  rfl

theorem nameRest_spaced {name : List Char} (token : IsToken name) (line : List Char) (what : String)
    (detail : Detail) :
    nameRest line what detail (spaced [name]) = .ok (String.ofList name, detail) := by
  have taken := token_space token line what atSpace_nil
  rw [List.append_nil] at taken
  simp [nameRest, taken]

/-! ### Members -/

/-- What follows the modifiers on the line of a member. -/
def detailText (scope : Erasure) (className : String) (m : Member) : List Char :=
  spaced ((detailTokens .full scope className m).filter (!·.isEmpty))

/-- A line is the tag, the modifiers, and what follows them. -/
theorem formatMember_full (scope : Erasure) (className : String) (m : Member) :
    formatMember .full scope className m =
      m.kind.tag.toList ++ (spaced (keywordTokens m.modifiers) ++
        detailText (scope.nest (m.detail.typeParameters?.map String.toList)) className m) := by
  have kept : (keywordTokens m.modifiers).filter (!·.isEmpty) = keywordTokens m.modifiers :=
    List.filter_eq_self.2 fun t mem => by simp [(keywordTokens_spec mem).1.filled]
  simp only [formatMember]
  rw [List.append_assoc, List.singleton_append, joinTokens_cons (isToken_tag m.kind).filled,
    List.filter_append, kept, spaced_append, detailText]

theorem filter_parameters {isList : List Char → Bool} {parameters : Option String} {next : List Char}
    (h : SoundParameters isList parameters next) :
    [parametersToken .full parameters].filter (!·.isEmpty) = (parameters.map String.toList).toList := by
  cases parameters with
  | none => rfl
  | some list => simp [parametersToken, LineStyle.full, h.1.filled]

theorem filter_throws (scope : Erasure) (exceptions : List String) :
    (throwsTokens .full scope exceptions).filter (!·.isEmpty) = throwsTokens .full scope exceptions := by
  unfold throwsTokens
  split <;> simp

theorem filter_default (default : Option String) :
    (default.map fun value => defaultWord ++ ' ' :: value.toList).toList.filter (!·.isEmpty) =
      (default.map fun value => defaultWord ++ ' ' :: value.toList).toList := by
  cases default <;> simp

/-- Reads what follows the modifiers on a line of this kind. -/
def detailRest (kind : MemberKind) (className : String) (line cs : List Char) : Except Malformed (String × Detail) :=
  match kind with
  | .superclass => nameRest line "superclass" .superclass cs
  | .superinterface => nameRest line "interface" (.superinterface true) cs
  | .nested =>
    (nameRest line "nested class name" .nested cs).map fun (simple, detail) => (className ++ "$" ++ simple, detail)
  | .field => fieldRest line
  | .method => methodRest line cs
  | .constructor => constructorRest line cs

/-- A member is read from a line just if its tag, its modifiers and the rest that its kind asks for are. -/
theorem parseMember_eq_ok_iff {kind : MemberKind} {className : String} {line : List Char} {m : Member} :
    parseMember kind className line = .ok m ↔ ∃ tag cs set rest name detail,
      token line kind.tag line = .ok (tag, cs) ∧ modifiers line cs = .ok (set, rest) ∧
        detailRest kind className line rest = .ok (name, detail) ∧ ⟨className, name, set, [], detail⟩ = m := by
  have whole : parseMember kind className line = (do
      let tagged ← token line kind.tag line
      let marked ← modifiers line tagged.2
      let read ← detailRest kind className line marked.2
      return ⟨className, read.1, marked.1, [], read.2⟩) := by
    cases kind <;> rfl
  simp only [whole, bind_eq_ok_iff, Prod.exists, pure_eq_ok_except, Except.ok.injEq]
  constructor
  · rintro ⟨tag, cs, tagged, set, rest, marked, name, detail, read, same⟩
    exact ⟨tag, cs, set, rest, name, detail, tagged, marked, read, same⟩
  · rintro ⟨tag, cs, set, rest, name, detail, tagged, marked, read, same⟩
    exact ⟨tag, cs, tagged, set, rest, marked, name, detail, read, same⟩

/-- A member is read back from its line if what follows the modifiers begins with no keyword and is read back. -/
theorem parseMember_of_detailRest {scope : Erasure} {className : String} {m : Member} {rest : List Char}
    (text : detailText (scope.nest (m.detail.typeParameters?.map String.toList)) className m = rest)
    (first : ∀ line, ∃ t behind, NotKeyword t ∧ token? line rest = .ok (some t, behind))
    (read : detailRest m.kind className (formatMember .full scope className m) rest = .ok (m.name, m.detail)) :
    parseMember m.kind className (formatMember .full scope className m) =
      .ok ⟨className, m.name, m.modifiers.visible, [], m.detail⟩ := by
  have whole : formatMember .full scope className m =
      m.kind.tag.toList ++ (spaced (keywordTokens m.modifiers) ++ rest) := by
    rw [formatMember_full, text]
  have ends : AtSpace rest := by
    rw [← text, detailText, ← List.append_nil (spaced _)]
    exact atSpace_spaced_append _ atSpace_nil
  obtain ⟨t, behind, word, next⟩ := first (formatMember .full scope className m)
  have tagged := token_append (isToken_tag m.kind) (formatMember .full scope className m) m.kind.tag
    (atSpace_spaced_append (keywordTokens m.modifiers) ends)
  rw [← whole] at tagged
  exact parseMember_eq_ok_iff.2
    ⟨_, _, _, _, _, _, tagged, modifiers_spaced m.modifiers word next ends, read, rfl⟩

theorem token?_detail {name : List Char} (token : IsToken name) (line : List Char) :
    token? line (spaced [name]) = .ok (some name, []) := by
  simpa using token?_space token line atSpace_nil

/-- A member with nothing but a name behind its modifiers is read back. -/
theorem parseMember_of_name {scope : Erasure} {className : String} {m : Member} {name : List Char}
    (token : IsToken name) (word : NotKeyword name)
    (text : detailTokens .full (scope.nest (m.detail.typeParameters?.map String.toList)) className m = [name])
    (read : ∀ line, detailRest m.kind className line (spaced [name]) = .ok (m.name, m.detail)) :
    parseMember m.kind className (formatMember .full scope className m) =
      .ok ⟨className, m.name, m.modifiers.visible, [], m.detail⟩ :=
  parseMember_of_detailRest (by simp [detailText, text, token.filled])
    (fun line => ⟨name, [], word, token?_detail token line⟩) (read _)

/-- A field is read back. -/
theorem parseMember_formatMember_field {className declaring name type : String} {constant : Option String}
    {set : Modifiers} {uses : List AnnotationUse} (sound : SoundField type.toList name.toList constant)
    (scope : Erasure) :
    parseMember .field className (formatMember .full scope className
        ⟨declaring, name, set, uses, .field type constant⟩) =
      .ok ⟨className, name, set.visible, [], .field type constant⟩ := by
  let m : Member := ⟨declaring, name, set, uses, .field type constant⟩
  have text (inner : Erasure) : detailText inner className m = spaced [type.toList, name.toList] ++
      spaced (constant.map fun c => '=' :: ' ' :: c.toList).toList := by
    cases constant <;>
      simp [m, detailText, detailTokens, styled, LineStyle.full, sound.typeToken.filled, sound.nameToken.filled]
  have nameEnds : AtSpace (spaced [name.toList] ++
      spaced (constant.map fun c => '=' :: ' ' :: c.toList).toList) := atSpace_cons _
  have whole : formatMember .full scope className m =
      MemberKind.field.tag.toList ++ spaced (keywordTokens set ++ [type.toList, name.toList]) ++
        spaced (constant.map fun c => '=' :: ' ' :: c.toList).toList := by
    rw [formatMember_full, text]
    simp [m, Member.kind, Detail.kind]
  refine parseMember_of_detailRest (m := m) (text _) (fun line => ?_) ?_
  · exact ⟨_, _, sound.typeWord, by simpa using token?_space sound.typeToken line nameEnds⟩
  · rw [whole]
    exact fieldRest_spaced sound set

/-- A method is read back. -/
theorem parseMember_formatMember_method {className declaring name result arguments : String}
    {parameters default : Option String} {exceptions : List String} {set : Modifiers} {uses : List AnnotationUse}
    (sound : SoundDetail className name (.method parameters result arguments exceptions default))
    (scope : Erasure) :
    parseMember .method className (formatMember .full scope className
        ⟨declaring, name, set, uses, .method parameters result arguments exceptions default⟩) =
      .ok ⟨className, name, set.visible, [], .method parameters result arguments exceptions default⟩ := by
  let m : Member := ⟨declaring, name, set, uses, .method parameters result arguments exceptions default⟩
  obtain ⟨listed, typed, call, thrown, given⟩ := sound
  have text (inner : Erasure) : detailText inner className m =
      spaced ((parameters.map String.toList).toList ++ [result.toList] ++
        [callToken name.toList arguments.toList] ++ throwsTokens .full inner exceptions ++
        (default.map fun value => defaultWord ++ ' ' :: value.toList).toList) := by
    have front := filter_parameters listed
    have middle := filter_throws inner exceptions
    have back := filter_default default
    simp only [m, detailText, detailTokens, styled, LineStyle.full, if_true] at front middle ⊢
    rw [List.filter_append, List.filter_append, middle, back, ← List.singleton_append,
      List.filter_append, front]
    simp [typed.filled, call.token.filled]
  have rest := methodRest_spaced listed typed call thrown given (scope.nest (parameters.map String.toList))
  exact parseMember_of_detailRest (m := m) (text _) (fun line => (rest line).1) (rest _).2

/-- A constructor is read back. -/
theorem parseMember_formatMember_constructor {className declaring name arguments : String}
    {parameters : Option String} {exceptions : List String} {set : Modifiers} {uses : List AnnotationUse}
    (sound : SoundDetail className name (.constructor parameters arguments exceptions)) (scope : Erasure) :
    parseMember .constructor className (formatMember .full scope className
        ⟨declaring, name, set, uses, .constructor parameters arguments exceptions⟩) =
      .ok ⟨className, name, set.visible, [], .constructor parameters arguments exceptions⟩ := by
  let m : Member := ⟨declaring, name, set, uses, .constructor parameters arguments exceptions⟩
  obtain ⟨listed, call, thrown⟩ := sound
  have text (inner : Erasure) : detailText inner className m =
      spaced ((parameters.map String.toList).toList ++
        [callToken name.toList arguments.toList] ++ throwsTokens .full inner exceptions) := by
    have front := filter_parameters listed
    have middle := filter_throws inner exceptions
    simp only [m, detailText, detailTokens, styled, LineStyle.full, if_true] at front middle ⊢
    rw [List.filter_append, middle, ← List.singleton_append, List.filter_append, front]
    simp [call.token.filled]
  have rest := constructorRest_spaced listed call thrown (scope.nest (parameters.map String.toList))
  exact parseMember_of_detailRest (m := m) (text _) (fun line => (rest line).1) (rest _).2

/-- A member of the shape that lines have is read back from its line. -/
theorem parseMember_formatMember {className : String} {m : Member}
    (sound : SoundDetail className m.name m.detail) (scope : Erasure) :
    parseMember m.kind className (formatMember .full scope className m) =
      .ok ⟨className, m.name, m.modifiers.visible, [], m.detail⟩ := by
  obtain ⟨declaring, name, set, uses, detail⟩ := m
  cases detail with
  | superclass =>
    obtain ⟨token, word⟩ := sound
    refine parseMember_of_name token word rfl fun line => ?_
    exact (nameRest_spaced token line "superclass" .superclass).trans (by rw [String.ofList_toList])
  | superinterface direct =>
    obtain ⟨rfl, token, word⟩ := sound
    refine parseMember_of_name token word rfl fun line => ?_
    exact (nameRest_spaced token line "interface" (.superinterface true)).trans (by rw [String.ofList_toList])
  | nested =>
    obtain ⟨simple, rfl, token, word⟩ := sound
    have stripped : afterLead? (className.toList ++ ['$']) (className.toList ++ '$' :: simple) = some simple := by
      simpa using afterLead?_append (className.toList ++ ['$']) simple
    refine parseMember_of_name token word (by simp [detailTokens, stripped]) fun line => ?_
    simp only [detailRest, Member.kind, Detail.kind, nameRest_spaced token, map_ok]
  | field type constant => exact parseMember_formatMember_field sound scope
  | method parameters result arguments exceptions default => exact parseMember_formatMember_method sound scope
  | constructor parameters arguments exceptions => exact parseMember_formatMember_constructor sound scope

end Line

end ApiSurface
