import ApiSurface.Proofs.JavaType.Erasure
import ApiSurface.Proofs.SignatureFile.ReadBack

/-!
Classes as they can be written in source. Names are names, types are legal types, lists of arguments are
types with commas between them. Main statement: what is kept of such a class is printable, with and without
generics (`ClassDescription.WellFormed.readable`).
-/

namespace ApiSurface

open ApiSurface.Text ApiSurface.Line

/-! ### Texts of source -/

/-- One type, which is not called like a modifier. -/
def IsTypeText (text : List Char) : Prop := ∃ t : JavaType, t.Legal ∧ NotKeyword t.erased ∧ text = t.render

/-- The name of a class is a type. -/
theorem IsTypeText.of_qualified {name : List Char} (named : IsQualified name) (word : NotKeyword name) :
    IsTypeText name := by
  have slash : '/' ∉ name := fun mem => (named.parts _ mem).elim (by decide) (by decide)
  have same : dotted name = name := replaceChar_of_notMem slash
  have erased : (JavaType.classType name none []).erased = name :=
    (List.append_nil (dotted name)).trans same
  have text : (JavaType.classType name none []).render = name :=
    (List.append_nil _).trans ((List.append_nil _).trans same)
  have legal : (JavaType.classType name none []).Legal := ⟨same.symm ▸ named, trivial, trivial⟩
  exact ⟨.classType name none [], legal, erased.symm ▸ word, text.symm⟩

/-- Type parameters between angle brackets. -/
def IsParametersText (text : List Char) : Prop :=
  ∃ ps : List TypeParameter, (∀ p ∈ ps, p.Legal) ∧ text = renderParameters ps

/-- Arguments with commas between them; the last one may be of a variable number. -/
def IsArgumentsText (text : List Char) : Prop :=
  ∃ ts : List JavaType, (∀ t ∈ ts, t.Legal) ∧
    (text = renderTypes ts ∨ text = renderTypes ts ++ ['.', '.', '.'])

/-- A value as it stands behind the word for defaults. -/
structure IsDefaultText (text : List Char) : Prop where
  filled : text ≠ []
  starts : ∀ c ∈ text.head?, c ≠ ' '
  ends : ∀ c ∈ text.getLast?, isBlank c = false
  singleLine : SingleLine text

/-- The value of an annotation that a line gives back can be a default. -/
theorem IsDefaultText.printValue {v : ElementValue} (sound : Annotated.SoundValue v)
    (single : SingleLine (ApiSurface.printValue v)) : IsDefaultText (ApiSurface.printValue v) := by
  obtain ⟨c, more, starts, noSpace, -⟩ := Annotated.printValue_starts sound
  exact ⟨by simp [starts], by simp [starts, noSpace], Annotated.printValue_ends sound, single⟩

/-- Exceptions, each of them a type. -/
def AreExceptions (exceptions : List String) : Prop :=
  ∀ e ∈ exceptions, ∃ t : JavaType, t.Legal ∧ e.toList = t.render

/-- The last part of a name has the characters of names. -/
theorem isNamePart_of_mem_simpleName {name : String} (h : IsQualified name.toList) :
    ∀ c ∈ (simpleName name).toList, isNamePart c := by
  intro c mem
  simp only [simpleName, String.toList_ofList] at mem
  obtain ⟨inTail, -⟩ := mem_of_mem_lastPiece mem
  obtain ⟨inName, noDot⟩ := mem_of_mem_lastPiece inTail
  exact (h.parts c inName).resolve_right noDot

/-- Details as they can be written in source, with the name of the member and of its class. -/
def Detail.WellFormed (className name : String) : Detail → Prop
  | .superclass | .superinterface _ => IsTypeText name.toList
  | .nested =>
    ∃ simple, name = className ++ "$" ++ String.ofList simple ∧ IsIdentifier simple ∧ NotKeyword simple
  | .field type constant =>
    IsTypeText type.toList ∧ IsIdentifier name.toList ∧ ∀ c ∈ constant, SingleLine c.toList
  | .method parameters result arguments exceptions default =>
    (∀ list ∈ parameters, IsParametersText list.toList) ∧ IsTypeText result.toList ∧
      IsIdentifier name.toList ∧ IsArgumentsText arguments.toList ∧ AreExceptions exceptions ∧
      ∀ value ∈ default, IsDefaultText value.toList
  | .constructor parameters arguments exceptions =>
    (∀ list ∈ parameters, IsParametersText list.toList) ∧ IsIdentifier name.toList ∧
      IsArgumentsText arguments.toList ∧ AreExceptions exceptions

/-- Hidden names as a line can list them. -/
def HiddenWellFormed (names : Ordered.Set String) : Prop :=
  ∀ name ∈ names.toList, name ≠ "" ∧ Trimmed name.toList ∧ ',' ∉ name.toList ∧ SingleLine name.toList

/-- A class as it can be written in source. Of its members those count that it declares itself. -/
structure ClassDescription.SourceClass (c : ClassDescription) : Prop where
  name : IsQualified c.name.toList ∧ NotKeyword c.name.toList
  parameters : ∀ list ∈ c.typeParameters, IsParametersText list.toList
  members : ∀ kind, ∀ m ∈ c.declared kind, m.kind = kind ∧ m.detail.WellFormed c.name m.name ∧
    ∀ use ∈ m.annotations, use.Printable
  annotations : ∀ use ∈ c.annotations, use.Printable
  hiddenFields : ∀ names ∈ c.hiddenFields, HiddenWellFormed names
  hiddenClasses : ∀ names ∈ c.hiddenClasses, HiddenWellFormed names

/-- A class as it can be written in source, or a module whose texts stay on one line each. -/
def ClassDescription.WellFormed (c : ClassDescription) : Prop :=
  match c.moduleInfo with
  | some m => ∀ t ∈ m.texts, SingleLine t.toList
  | none => c.SourceClass

/-! ### Kept texts -/

/-- What a line needs of a type: one token and item without a sign of equality, whose first character
opens nothing. -/
structure IsTypeToken (t : List Char) : Prop where
  item : IsItem brackets t
  clear : Clear brackets [' ', ','] t
  noMark : '=' ∉ t
  starts : ∀ c ∈ t.head?, c ≠ '<'
  singleLine : SingleLine t

namespace IsTypeToken

variable {t : List Char}

theorem isToken (h : IsTypeToken t) : IsToken t := ⟨h.item.filled, h.clear.of_subset (by decide)⟩

theorem of_flat (flat : IsFlat t) : IsTypeToken t := by
  have never {c : Char} (other : isTypeChar c = false) : c ∉ t := by
    intro mem
    rw [flat.chars c mem] at other
    cases other
  refine ⟨⟨flat.filled, flat.trimmed, flat.clear.of_subset (by decide)⟩, flat.clear, never (by decide),
    fun c mem same => never (c := '<') (by decide) (same ▸ List.mem_of_mem_head? mem), fun c mem => ?_⟩
  exact ⟨fun same => never (c := '\n') (by decide) (same ▸ mem),
    fun same => never (c := '\r') (by decide) (same ▸ mem)⟩

end IsTypeToken

/-- Rendered text stays on one line and holds no sign of equality. -/
theorem Renders.plain {stops t e : List Char} (h : Renders stops t e) : '=' ∉ t ∧ SingleLine t := by
  have never {c : Char} (other : isNamePart c = false ∧ c ∉ ['.', '[', ']', ',', '<', '>', '?', ' ', '&']) :
      c ∉ t := by
    intro mem
    rcases h.chars c mem with part | listed
    · rw [part] at other
      cases other.1
    · exact other.2 listed
  exact ⟨never (by decide), fun c mem => ⟨fun same => never (c := '\n') (by decide) (same ▸ mem),
    fun same => never (c := '\r') (by decide) (same ▸ mem)⟩⟩

/-- A type begins with a character of a name. -/
theorem JavaType.Legal.starts {t : JavaType} (h : t.Legal) : ∀ c ∈ t.render.head?, isNamePart c := by
  intro c mem
  cases t with
  | primitive p => exact (primitive_parts p).parts c (List.mem_of_mem_head? mem)
  | «variable» name => exact IsIdentifier.parts h c (List.mem_of_mem_head? mem)
  | array element =>
    have inner := JavaType.Legal.starts (t := element) h
    have filled := render_ne_nil (t := element) h
    rw [JavaType.render, List.head?_append_of_ne_nil _ filled] at mem
    exact inner c mem
  | classType name arguments nested =>
    obtain ⟨⟨parts, some, joined, each⟩, -⟩ := h
    cases parts with
    | nil => exact absurd rfl some
    | cons p parts =>
      have first := each p (by simp)
      cases chars : p with
      | nil => exact absurd chars first.filled
      | cons d p' =>
        have shape : ∃ more, dotted name = d :: more := by
          rw [joined, chars]
          exact ⟨_, join_cons_char ['.'] d p' parts⟩
        obtain ⟨more, shape⟩ := shape
        obtain rfl : d = c := by simpa [JavaType.render, shape] using mem
        exact first.parts d (by simp [chars])

theorem JavaType.Legal.typeToken {t : JavaType} (h : t.Legal) : IsTypeToken t.render := by
  refine ⟨h.isItem, h.renders.clear, h.renders.plain.1, fun c mem same => ?_, h.renders.plain.2⟩
  have part := h.starts c mem
  rw [same] at part
  revert part
  decide

/-- A type is no keyword if it is none without its arguments. -/
theorem notKeyword_render {t : JavaType} (h : t.Legal) (word : NotKeyword t.erased) : NotKeyword t.render := by
  by_contra keyword
  have letters := Erasure.isNameChar_of_keyword keyword
  have plain : Renders [] t.render t.render := by
    refine .word fun c mem => ⟨?_, by simp⟩
    rcases h.renders.chars c mem with part | listed
    · exact .inl part
    · have dot : ∀ d ∈ ['.', '[', ']', ',', '<', '>', '?', ' ', '&'], isNameChar d →
          d ∈ ['.', ',', '?', ' ', '&'] := by decide
      exact .inr (dot c listed (letters c mem))
  -- without brackets nothing is erased
  have kept := plain.drops 0 []
  rw [h.renders.drops 0 []] at kept
  simp only [if_true, dropArguments, List.append_nil] at kept
  exact keyword (kept ▸ word)

variable {active : Feature → Bool} {scope : Erasure}

variable (active) in
/-- A type is kept as a type. -/
theorem typeToken_kept (sound : scope.Sound) {text : String} {t : JavaType} (h : t.Legal)
    (same : text.toList = t.render) : IsTypeToken (keptType active scope text).toList := by
  unfold keptType
  split
  · rw [same]
    exact h.typeToken
  · rw [String.toList_ofList, same]
    exact .of_flat (sound.flat_erase h)

theorem notKeyword_kept (sound : scope.Sound) {text : String} {t : JavaType} (h : t.Legal)
    (word : NotKeyword t.erased) (same : text.toList = t.render) :
    NotKeyword (keptType active scope text).toList := by
  unfold keptType
  split
  · rw [same]
    exact notKeyword_render h word
  · rw [String.toList_ofList, same]
    exact sound.notKeyword_erase h word

/-- Arguments are kept as one balanced text. -/
theorem arguments_kept (sound : scope.Sound) {text : String} (h : IsArgumentsText text.toList) :
    Clear brackets [' '] (keptType active scope text).toList ∧ SingleLine (keptType active scope text).toList := by
  obtain ⟨ts, legal, shape⟩ := h
  have list := renders_types legal
  have dots : Renders [' '] ['.', '.', '.'] ['.', '.', '.'] := .word (by decide)
  have both : ∃ e, Renders [' '] text.toList e ∧ (∀ c ∈ spellArrays e, isTypeChar c) ∧
      Clear brackets [' '] (spellArrays e) := by
    have flat := flat_types legal
    rcases shape with same | same
    · have spelled : spellArrays (erasedTypes ts) = erasedTypes ts := by
        simpa [spellArrays] using spelled_types legal []
      exact ⟨_, same ▸ list, by rw [spelled]; exact flat⟩
    · have spelled : spellArrays (erasedTypes ts ++ ['.', '.', '.']) = erasedTypes ts ++ ['[', ']'] := by
        simpa [spellArrays] using spelled_types legal ['.', '.', '.']
      refine ⟨_, same ▸ list.append dots, ?_⟩
      rw [spelled]
      refine ⟨fun c mem => ?_, flat.2.append (clear_dimension (List.Subset.refl _) (by decide))⟩
      rcases List.mem_append.1 mem with mem | mem
      · exact flat.1 c mem
      · have dimension : ∀ d ∈ ['[', ']'], isTypeChar d := by decide
        exact dimension c mem
  obtain ⟨e, renders, chars, clear⟩ := both
  unfold keptType
  split
  · exact ⟨renders.clear, renders.plain.2⟩
  · have strip : stripGenerics text.toList = spellArrays e := by
      have drops := renders.drops 0 []
      simp only [if_true, dropArguments, List.append_nil] at drops
      rw [stripGenerics, drops]
    obtain ⟨chars, clear⟩ := sound.erase (by decide : [' '] ⊆ [' ', ',']) (by rw [strip]; exact chars)
      (by rw [strip]; exact clear)
    rw [String.toList_ofList]
    refine ⟨clear, fun c mem => ?_⟩
    have char := chars c mem
    constructor <;> rintro rfl <;> revert char <;> decide

/-- Exceptions are kept as items of a list. -/
theorem exceptions_kept (sound : scope.Sound) {exceptions : List String} (h : AreExceptions exceptions) :
    SoundThrows (exceptions.map (keptType active scope)) ∧
      ∀ e ∈ exceptions.map (keptType active scope), SingleLine e.toList := by
  have each : ∀ e ∈ exceptions.map (keptType active scope), IsTypeToken e.toList := by
    intro e mem
    obtain ⟨text, inList, rfl⟩ := List.mem_map.1 mem
    obtain ⟨t, legal, same⟩ := h text inList
    exact typeToken_kept _ sound legal same
  exact ⟨fun e mem => ⟨(each e mem).item, (each e mem).isToken.clear⟩, fun e mem => (each e mem).singleLine⟩

/-- A list of exceptions is erased one by one. -/
theorem erase_exceptions {exceptions : List String} (h : AreExceptions exceptions) :
    scope.erase (join [','] (exceptions.map String.toList)) =
      join [','] (exceptions.map fun e => scope.erase e.toList) := by
  have types : ∃ ts : List JavaType, (∀ t ∈ ts, t.Legal) ∧
      exceptions.map String.toList = ts.map JavaType.render := by
    induction exceptions with
    | nil => exact ⟨[], by simp, rfl⟩
    | cons e es ih =>
      obtain ⟨t, legal, same⟩ := h e (by simp)
      obtain ⟨ts, all, shape⟩ := ih fun f mem => h f (by simp [mem])
      exact ⟨t :: ts, by simpa using ⟨legal, all⟩, by simp [same, shape]⟩
  obtain ⟨ts, legal, shape⟩ := types
  have each : exceptions.map (fun e => scope.erase e.toList) = ts.map fun t => scope.erase t.render := by
    have mapped := congrArg (List.map scope.erase) shape
    simpa [Function.comp_def] using mapped
  rw [shape, each]
  exact Erasure.erase_types legal

/-! ### Kept members -/

theorem IsIdentifier.plain {t : List Char} (h : IsIdentifier t) :
    IsToken t ∧ '(' ∉ t ∧ '=' ∉ t ∧ '<' ∉ t ∧ SingleLine t := by
  have never {c : Char} (other : isNamePart c = false) : c ∉ t := by
    intro mem
    rw [h.parts c mem] at other
    cases other
  exact ⟨⟨h.filled, (renders_identifier h).clear.of_subset (by decide)⟩, never (by decide), never (by decide),
    never (by decide), (renders_identifier h).plain.2⟩

theorem soundCall_of {name arguments : List Char} (named : IsIdentifier name)
    (clear : Clear brackets [' '] arguments) : SoundCall name arguments := by
  obtain ⟨token, free, -⟩ := named.plain
  refine ⟨named.filled, free, by simp [callToken], ?_⟩
  have whole : callToken name arguments = name ++ ('(' :: arguments ++ [')']) := by simp [callToken]
  rw [whole]
  exact token.clear.append (Clear.bracketed (List.Subset.refl _) clear (by decide) (by decide))

/-- A text with a bracket is no keyword. -/
theorem notKeyword_of_mem {t : List Char} {c : Char} (mem : c ∈ t) (other : isNameChar c = false) :
    NotKeyword t := by
  by_contra keyword
  rw [Erasure.isNameChar_of_keyword keyword c mem] at other
  cases other

/-- Type parameters are not taken for the name of constructors. -/
theorem listsParameters_render {ps : List TypeParameter} (h : ∀ p ∈ ps, p.Legal) :
    listsParameters (renderParameters ps) = true := by
  have noName : ¬"<init>".toList <+: renderParameters ps := by
    rintro ⟨rest, whole⟩
    cases ps with
    | nil => simp [renderParameters, join, List.intercalate] at whole
    | cons p ps =>
      have named := (h p (by simp)).name
      have shape : ∃ more, renderParameters (p :: ps) = '<' :: (p.name ++ ' ' :: more) := by
        cases ps with
        | nil => exact ⟨_, by simp [renderParameters, TypeParameter.render]; rfl⟩
        | cons q ps => exact ⟨_, by simp [renderParameters, join_cons_cons, TypeParameter.render]; rfl⟩
      obtain ⟨more, shape⟩ := shape
      rw [shape] at whole
      have behind : "init".toList ++ '>' :: rest = p.name ++ ' ' :: more := by simpa using whole
      -- the name ends where its characters do
      have ends := congrArg (List.takeWhile isNamePart) behind
      rw [List.takeWhile_append_of_pos named.parts, List.takeWhile_append_of_pos (by decide)] at ends
      have stops : isNamePart '>' = false ∧ isNamePart ' ' = false := by decide
      simp only [List.takeWhile_cons, stops.1, stops.2, Bool.false_eq_true, if_false, List.append_nil] at ends
      rw [ends] at behind
      simp at behind
  have lead : ['<'].isPrefixOf (renderParameters ps) = true := List.isPrefixOf_iff_prefix.2 ⟨_, rfl⟩
  have other : "<init>".toList.isPrefixOf (renderParameters ps) = false := by
    rw [← Bool.not_eq_true, List.isPrefixOf_iff_prefix]
    exact noName
  rw [listsParameters, lead, other]
  rfl

/-- What a line needs of type parameters. -/
structure IsParametersToken (t : List Char) : Prop where
  token : IsToken t
  starts : ['<'].isPrefixOf t = true
  lists : listsParameters t = true
  word : NotKeyword t
  singleLine : SingleLine t

variable (active) in
theorem parameters_kept {parameters : Option String} (h : ∀ list ∈ parameters, IsParametersText list.toList) :
    ∀ list ∈ keptParameters active parameters, IsParametersToken list.toList := by
  intro list mem
  have listed : list ∈ parameters := by
    unfold keptParameters at mem
    split at mem
    · exact mem
    · cases mem
  obtain ⟨ps, legal, same⟩ := h list listed
  have whole := renders_parameters fun p inList => (legal p inList).named
  rw [same]
  exact ⟨⟨by simp [renderParameters], whole.clear⟩, rfl, listsParameters_render legal,
    notKeyword_of_mem (c := '<') (by simp [renderParameters]) (by decide), whole.plain.2⟩

variable (active) in
/-- Type parameters, or none, are kept in front of a token that is no list of them. -/
theorem soundParameters_kept {isList : List Char → Bool} {parameters : Option String} {next : List Char}
    (h : ∀ list ∈ parameters, IsParametersText list.toList) (lists : ∀ t, IsParametersToken t → isList t = true)
    (noList : isList next = false) (word : NotKeyword next) :
    SoundParameters isList (keptParameters active parameters) next := by
  cases kept : keptParameters active parameters with
  | none => exact ⟨noList, word⟩
  | some list =>
    have token := parameters_kept active h list kept
    exact ⟨token.token, lists _ token, token.word⟩

/-- A text that does not begin with an angle bracket. -/
theorem noBracket_of_head {t : List Char} (h : ∀ c ∈ t.head?, c ≠ '<') : ['<'].isPrefixOf t = false := by
  cases t with
  | nil => rfl
  | cons c t =>
    simp only [List.isPrefixOf, Bool.and_true, beq_eq_false_iff_ne]
    exact Ne.symm (h c rfl)

theorem soundField_kept (sound : scope.Sound) {name type : String} {constant : Option String}
    (typed : IsTypeText type.toList) (named : IsIdentifier name.toList) :
    SoundField (keptType active scope type).toList name.toList constant := by
  obtain ⟨t, legal, word, same⟩ := typed
  have kept := typeToken_kept active sound legal same
  obtain ⟨token, -, noMark, -⟩ := named.plain
  have notMark {t : List Char} (free : '=' ∉ t) : t ≠ ['='] := fun mark => free (mark ▸ List.mem_singleton_self '=')
  exact ⟨kept.isToken, notKeyword_kept sound legal word same, constantMark_not_inside kept.noMark,
    notMark kept.noMark, token, constantMark_not_inside noMark, fun _ => notMark noMark⟩

theorem soundDetail_kept (sound : scope.Sound) {className name : String} {detail : Detail}
    (h : detail.WellFormed className name) (direct : ∀ b, detail = .superinterface b → b = true) :
    SoundDetail className (detail.keptName active scope name) (detail.project active scope) ∧
      SingleLineDetail className (detail.keptName active scope name) (detail.project active scope) := by
  cases detail with
  | superclass =>
    obtain ⟨t, legal, word, same⟩ := h
    have kept := typeToken_kept active sound legal same
    exact ⟨⟨kept.isToken, notKeyword_kept sound legal word same⟩, kept.singleLine⟩
  | superinterface b =>
    obtain rfl := direct b rfl
    obtain ⟨t, legal, word, same⟩ := h
    have kept := typeToken_kept active sound legal same
    exact ⟨⟨rfl, kept.isToken, notKeyword_kept sound legal word same⟩, kept.singleLine⟩
  | nested =>
    obtain ⟨simple, qualified, named, word⟩ := h
    refine ⟨⟨simple, qualified, named.plain.1, word⟩, fun other same => ?_⟩
    have back : simple = other := by
      have chars := congrArg String.toList (qualified.symm.trans same)
      simpa using chars
    exact back ▸ named.plain.2.2.2.2
  | field type constant =>
    obtain ⟨typed, named, valued⟩ := h
    refine ⟨soundField_kept sound typed named, ?_, named.plain.2.2.2.2, fun c mem => ?_⟩
    · obtain ⟨t, legal, -, same⟩ := typed
      exact (typeToken_kept active sound legal same).singleLine
    · split at mem
      · exact valued c mem
      · cases mem
  | method parameters result arguments exceptions default =>
    obtain ⟨listed, ⟨t, legal, word, same⟩, named, given, thrown, defaults⟩ := h
    have kept := typeToken_kept active sound legal same
    obtain ⟨clear, singleArguments⟩ := arguments_kept sound given
    obtain ⟨throws, singleThrows⟩ := exceptions_kept sound thrown
    have list := soundParameters_kept active listed (fun _ token => token.starts)
      (noBracket_of_head kept.starts) (notKeyword_kept sound legal word same)
    refine ⟨⟨list, kept.isToken, soundCall_of named clear, throws, fun value mem => ?_⟩,
      fun l mem => (parameters_kept active listed l mem).singleLine, kept.singleLine, named.plain.2.2.2.2,
      singleArguments, singleThrows, fun value mem => (defaults value mem).singleLine⟩
    have text := defaults value mem
    exact ⟨text.filled, text.starts, text.ends⟩
  | constructor parameters arguments exceptions =>
    obtain ⟨listed, named, given, thrown⟩ := h
    obtain ⟨clear, singleArguments⟩ := arguments_kept sound given
    obtain ⟨throws, singleThrows⟩ := exceptions_kept sound thrown
    have starts : ∀ c ∈ (callToken name.toList (keptType active scope arguments).toList).head?, c ≠ '<' := by
      intro c mem same
      rw [callToken, List.append_assoc, List.head?_append_of_ne_nil _ named.filled] at mem
      exact named.plain.2.2.2.1 (same ▸ List.mem_of_mem_head? mem)
    have list := soundParameters_kept active listed (fun _ token => token.lists)
      (by rw [listsParameters, noBracket_of_head starts, Bool.false_and])
      (notKeyword_of_mem (c := '(') (by simp [callToken]) (by decide))
    exact ⟨⟨list, soundCall_of named clear, throws⟩, fun l mem => (parameters_kept active listed l mem).singleLine,
      named.plain.2.2.2.2, singleArguments, singleThrows⟩

theorem notMem_of_isQualified {name : List Char} (named : IsQualified name) : '<' ∉ name := by
  intro mem
  rcases named.parts '<' mem with part | same
  · revert part
    decide
  · revert same
    decide

variable (active) in
/-- The token that names a class with what is kept of its parameters. -/
theorem headerToken_kept {name : String} {list : Option String}
    (named : IsQualified name.toList ∧ NotKeyword name.toList)
    (parameters : ∀ l ∈ list, IsParametersText l.toList) :
    IsToken (headerToken name (keptParameters active list)) ∧
      NotKeyword (headerToken name (keptParameters active list)) ∧
      SingleLine (headerToken name (keptParameters active list)) := by
  have rendered := renders_qualified named.1
  have clear : Clear brackets [' '] name.toList := rendered.clear.of_subset (by decide)
  cases some : keptParameters active list with
  | none =>
    simp only [headerToken, Option.getD_none, String.toList_empty, List.append_nil]
    exact ⟨⟨named.1.filled, clear⟩, named.2, rendered.plain.2⟩
  | some l =>
    have token := parameters_kept active parameters l some
    simp only [headerToken, Option.getD_some]
    have opens : '<' ∈ l.toList := by
      obtain ⟨rest, whole⟩ := List.isPrefixOf_iff_prefix.1 token.starts
      simp [← whole]
    exact ⟨⟨by simp [named.1.filled], clear.append token.token.clear⟩,
      notKeyword_of_mem (List.mem_append_right _ opens) (by decide),
      SingleLine.append_iff.2 ⟨rendered.plain.2, token.singleLine⟩⟩

/-! ### Kept classes -/

namespace ClassDescription

variable {c : ClassDescription}

theorem sound_nest (sound : scope.Sound) {parameters : Option String}
    (h : ∀ list ∈ parameters, IsParametersText list.toList) :
    (scope.nest (parameters.map String.toList)).Sound := by
  cases parameters with
  | none => exact sound
  | some list =>
    obtain ⟨ps, legal, same⟩ := h list rfl
    rw [Option.map_some, same]
    exact sound.nest legal

/-- A member brings sound bindings into scope, within those of the class. -/
theorem sound_inner (listed : ∀ list ∈ c.typeParameters, IsParametersText list.toList) {className name : String}
    {detail : Detail} (shape : detail.WellFormed className name) :
    (c.scope.nest (detail.typeParameters?.map String.toList)).Sound := by
  refine sound_nest (sound_nest Erasure.sound_empty listed) fun list own => ?_
  cases detail with
  | method parameters | constructor parameters => exact shape.1 list own
  | superclass | superinterface | field | nested => cases own

theorem SourceClass.inner (h : c.SourceClass) {kind : MemberKind} {m : Member} (mem : m ∈ c.declared kind) :
    (c.scope.nest (m.detail.typeParameters?.map String.toList)).Sound :=
  sound_inner h.parameters (h.members kind m mem).2.1

theorem SourceClass.erasesThrows (h : c.SourceClass) : c.ErasesThrows active := by
  intro _ kind m mem
  have shape := (h.members kind m mem).2.1
  refine erase_exceptions ?_
  cases detail : m.detail with
  | method parameters result arguments exceptions default =>
    rw [detail] at shape
    exact shape.2.2.2.2.1
  | constructor parameters arguments exceptions =>
    rw [detail] at shape
    exact shape.2.2.2
  | superclass | superinterface | field | nested => simp [Detail.exceptions, AreExceptions]

theorem printable_hidden {names : Option (Ordered.Set String)} (h : ∀ set ∈ names, HiddenWellFormed set) :
    ∀ set ∈ (if active .listOfHiders then nonempty? names else none), PrintableHidden set := by
  intro set mem
  split at mem
  · obtain ⟨listed, filled⟩ := Option.filter_eq_some_iff.1 mem
    have each := h set listed
    exact ⟨by simpa using filled, fun name inSet => ⟨(each name inSet).1, (each name inSet).2.1,
      (each name inSet).2.2.1⟩, fun name inSet => (each name inSet).2.2.2⟩
  · cases mem

/-- What is kept of a class is printable if what is kept of every member is. -/
theorem printable_project (named : IsQualified c.name.toList ∧ NotKeyword c.name.toList)
    (listed : ∀ list ∈ c.typeParameters, IsParametersText list.toList)
    (members : ∀ kind, ∀ m ∈ c.declared kind, m.kind = kind ∧
      SoundDetail c.name (m.project active c.scope).name (m.project active c.scope).detail ∧
      SingleLineDetail c.name (m.project active c.scope).name (m.project active c.scope).detail ∧
      ∀ use ∈ m.annotations, use.Printable)
    (annotations : ∀ use ∈ c.annotations, use.Printable)
    (hiddenFields : ∀ names ∈ c.hiddenFields, HiddenWellFormed names)
    (hiddenClasses : ∀ names ∈ c.hiddenClasses, HiddenWellFormed names) (noModule : c.moduleInfo = none) :
    (c.project active).Printable := by
  obtain ⟨token, word, single⟩ := headerToken_kept active named listed
  refine ⟨⟨token, word, notMem_of_isQualified named.1, fun list mem => ?_⟩, single, visible_visible _,
    fun kind m' mem => ?_, annotations, printable_hidden hiddenFields, printable_hidden hiddenClasses, noModule⟩
  · obtain ⟨rest, whole⟩ := List.isPrefixOf_iff_prefix.1 (parameters_kept active listed list mem).starts
    simp [← whole]
  · rw [members_project] at mem
    obtain ⟨m, declared, rfl⟩ := List.mem_map.1 mem
    obtain ⟨filed, sound, single, uses⟩ := members kind m declared
    obtain ⟨-, own⟩ := List.mem_filter.1 declared
    simp only [Bool.and_eq_true, beq_iff_eq] at own
    refine ⟨?_, own.1, visible_visible _, sound, single, uses⟩
    rw [← filed]
    exact kind_project _ _

/-- What is kept of a class of source is printable. -/
theorem SourceClass.printable (h : c.SourceClass) (noModule : c.moduleInfo = none) :
    (c.project active).Printable := by
  refine printable_project h.name h.parameters (fun kind m declared => ?_) h.annotations h.hiddenFields
    h.hiddenClasses noModule
  obtain ⟨filed, shape, uses⟩ := h.members kind m declared
  obtain ⟨-, own⟩ := List.mem_filter.1 declared
  simp only [Bool.and_eq_true, beq_iff_eq] at own
  have direct : ∀ b, m.detail = .superinterface b → b = true := by
    intro b same
    have isDirect := own.2
    rw [Member.isDirect, same] at isDirect
    exact isDirect
  obtain ⟨sound, single⟩ := soundDetail_kept (h.inner declared) shape direct
  exact ⟨filed, sound, single, uses⟩

/-- What is kept of a class is carried. -/
theorem carried_project (c : ClassDescription) : (c.project active).Carried active := by
  refine ⟨fun left m' mem => ?_, fun left => by simp [project, left]⟩
  have listed : m' ∈ (c.project active).members .field := mem
  rw [members_project] at listed
  obtain ⟨m, -, rfl⟩ := List.mem_map.1 listed
  obtain ⟨declaring, name, set, uses, detail⟩ := m
  cases detail <;> simp [Member.constant?, Member.project, Detail.project, left]

theorem WellFormed.erasesThrows (h : c.WellFormed) (info : c.moduleInfo = none) : c.ErasesThrows active := by
  rw [WellFormed, info] at h
  exact SourceClass.erasesThrows h

/-- What is kept of well-formed classes and modules is given back by its block. -/
theorem WellFormed.readable (h : c.WellFormed) : ∀ d ∈ c.project? active, d.Readable active := by
  intro d mem
  unfold WellFormed at h
  unfold project? at mem
  cases info : c.moduleInfo with
  | none =>
    rw [info] at h mem
    obtain rfl := Option.some.inj mem
    exact .ofClass (h.printable info) (carried_project c)
  | some m =>
    rw [info] at h mem
    simp only [Option.mem_def, Option.ite_none_right_eq_some, Option.some.injEq] at mem
    obtain ⟨on, rfl⟩ := mem
    exact .ofModule on h

end ClassDescription

end ApiSurface
