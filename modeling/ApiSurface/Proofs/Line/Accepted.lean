import ApiSurface.Proofs.Line.Member
import ApiSurface.Proofs.Text.SingleLine

/-!
What the reader of member lines accepts. Main statements: a line of a field is read as its declaration and its
constant say (`fieldRest_eq_ok_iff`); a member that was read has the shape that its own line gives back, and
printing it stays on one line when the line that was read did (`readMember_of_parseMember`); so the printed line
reads as the same member, however loosely the line was written (`parseMember_formatMember_of_parseMember`).
-/

namespace ApiSurface.Line

open ApiSurface.Text

/-! ### Taken tokens -/

/-- A token that was taken off a text, and the rest behind it. -/
structure Taken (cs t rest : List Char) : Prop where
  whole : dropSpaces cs = t ++ rest
  token : IsToken t
  atSpace : AtSpace rest

theorem taken_of_token? {line cs t rest : List Char} (h : token? line cs = .ok (some t, rest)) :
    Taken cs t rest := by
  obtain ⟨whole, token, ends⟩ := token?_eq_some_iff.1 h
  exact ⟨whole, token, ends⟩

theorem taken_of_token {line cs t rest : List Char} {what : String}
    (h : token line what cs = .ok (t, rest)) : Taken cs t rest := by
  obtain ⟨whole, token, ends⟩ := token_eq_ok_iff.1 h
  exact ⟨whole, token, ends⟩

theorem token?_of_token {line cs t rest : List Char} {what : String}
    (h : token line what cs = .ok (t, rest)) : token? line cs = .ok (some t, rest) := by
  obtain ⟨whole, token, ends⟩ := token_eq_ok_iff.1 h
  exact token?_eq_some_iff.2 ⟨whole, token, ends⟩

namespace Taken

variable {cs t rest : List Char}

theorem token?_eq (h : Taken cs t rest) (line : List Char) :
    Line.token? line cs = .ok (some t, rest) :=
  token?_eq_some_iff.2 ⟨h.whole, h.token, h.atSpace⟩

theorem token_eq (h : Taken cs t rest) (line : List Char) (what : String) :
    Line.token line what cs = .ok (t, rest) :=
  token_eq_ok_iff.2 ⟨h.whole, h.token, h.atSpace⟩

theorem suffix (h : Taken cs t rest) : rest <:+ cs :=
  (h.whole ▸ List.suffix_append t rest).trans (dropSpaces_suffix cs)

theorem part (h : Taken cs t rest) : t <:+: cs :=
  (h.whole ▸ List.prefix_append t rest).isInfix.trans (dropSpaces_suffix cs).isInfix

/-- Behind another token there is a space right before the token. -/
theorem exists_space (h : Taken cs t rest) (starts : AtSpace cs) :
    ∃ lead, cs = lead ++ ' ' :: (t ++ rest) := by
  have cut : cs = cs.takeWhile (· == ' ') ++ (t ++ rest) := by
    rw [← h.whole]
    exact (List.takeWhile_append_dropWhile).symm
  rcases List.eq_nil_or_concat' (cs.takeWhile (· == ' ')) with none | ⟨front, c, spaces⟩
  · rw [none, List.nil_append] at cut
    cases t with
    | nil => exact absurd rfl h.token.filled
    | cons d t =>
      have space : d = ' ' := starts d (by simp [cut])
      exact absurd space (h.token.head_ne d (by simp))
  · have space : c = ' ' := by
      have mem : c ∈ cs.takeWhile (· == ' ') := by simp [spaces]
      simpa using List.mem_takeWhile_imp mem
    subst space
    rw [spaces] at cut
    exact ⟨front, by simpa using cut⟩

end Taken

/-! ### Parts of members -/

theorem soundThrows_nil : SoundThrows [] := by simp [SoundThrows]

/-- Exceptions that were read are items, and what is left is a rest of the line. -/
theorem of_throws {line cs rest : List Char} {exceptions : List String}
    (h : throws line cs = .ok (exceptions, rest)) :
    SoundThrows exceptions ∧ rest <:+ cs ∧ ∀ e ∈ exceptions, e.toList ⊆ cs := by
  simp only [throws, bind_eq_ok_iff] at h
  obtain ⟨⟨next, behind⟩, first, h⟩ := h
  dsimp only at h
  split at h
  · rename_i word
    subst word
    have outer := taken_of_token? first
    obtain ⟨⟨list, after⟩, second, h⟩ := bind_eq_ok_iff.1 h
    obtain ⟨types, read, h⟩ := bind_eq_ok_iff.1 h
    have inner := taken_of_token second
    cases h
    have cut : items brackets list = .ok types := by
      cases found : items brackets list <;> simp_all [liftBrackets, fail]
    have spec := clear_of_items (List.Subset.refl _) inner.token.clear cut
    refine ⟨fun e mem => ?_, inner.suffix.trans outer.suffix, fun e mem => ?_⟩
    · obtain ⟨t, inList, rfl⟩ := List.mem_map.1 mem
      rw [String.toList_ofList]
      exact ⟨(spec t inList).1, (spec t inList).2.1⟩
    · obtain ⟨t, inList, rfl⟩ := List.mem_map.1 mem
      rw [String.toList_ofList]
      have inside : list ⊆ cs := (inner.part.trans outer.suffix.isInfix).subset
      exact fun c mem => inside ((spec t inList).2.2 c mem)
  · cases h
    exact ⟨soundThrows_nil, List.suffix_refl _, by simp⟩

/-- A default that was read is trimmed. -/
theorem of_default? {line cs : List Char} {default : Option String}
    (h : default? line cs = .ok default) :
    ∀ value ∈ default, SoundDefault value.toList ∧ value.toList ⊆ cs := by
  simp only [default?, bind_eq_ok_iff] at h
  obtain ⟨⟨next, behind⟩, first, h⟩ := h
  cases next with
  | none =>
    cases h
    simp
  | some t =>
    dsimp only at h
    split_ifs at h with word none
    · cases h
    · cases h
      intro value mem
      obtain rfl : value = String.ofList (trimEnd (dropSpaces behind)) := by simpa using mem.symm
      rw [String.toList_ofList]
      obtain ⟨tail, cut, -⟩ := exists_eq_trimEnd_append (dropSpaces behind)
      have filled : trimEnd (dropSpaces behind) ≠ [] := by simpa using none
      refine ⟨⟨filled, fun c mem => ?_, getLast?_trimEnd⟩, fun c mem => ?_⟩
      · apply head?_dropSpaces _ c
        rw [cut, List.head?_append_of_ne_nil _ filled]
        exact mem
      · apply (taken_of_token? first).suffix.subset
        apply mem_of_mem_dropSpaces
        rw [cut]
        exact List.mem_append_left _ mem
    · cases h

theorem of_splitCall {line t name arguments : List Char} (token : IsToken t)
    (h : splitCall line t = .ok (name, arguments)) :
    t = callToken name arguments ∧ SoundCall name arguments := by
  simp only [splitCall] at h
  split at h
  · cases h
  · rename_i before rest cut
    obtain ⟨whole, free⟩ := of_cutAt?_singleton cut
    split at h
    · cases h
    · rename_i inner close
      have ending := beforeTail?_eq_some_iff.1 close
      split at h
      · cases h
      · rename_i named
        cases h
        have shape : t = callToken name arguments := by
          rw [whole, ending, callToken]
          simp
        exact ⟨shape, by simpa using named, free, shape ▸ token⟩

/-- Type parameters that were read are a list, and what they belong to is a token behind them. -/
theorem of_typeParameters? {line cs t rest next : List Char} {what : String}
    {isList : List Char → Bool} {parameters : Option String} (word : NotKeyword t) (token : IsToken t)
    (h : typeParameters? line what isList t cs = .ok (parameters, next, rest)) :
    SoundParameters isList parameters next ∧ IsToken next ∧ (AtSpace cs → AtSpace rest) ∧ rest <:+ cs ∧
      next ⊆ t ++ cs ∧ ∀ list ∈ parameters, list.toList = t := by
  simp only [typeParameters?] at h
  split_ifs at h with listed
  · obtain ⟨⟨u, behind⟩, second, h⟩ := map_eq_ok_iff.1 h
    cases h
    have taken := taken_of_token second
    refine ⟨⟨by rwa [String.toList_ofList], by rwa [String.toList_ofList], by rwa [String.toList_ofList]⟩,
      taken.token, fun _ => taken.atSpace, taken.suffix, fun c mem => ?_, by simp⟩
    exact List.mem_append_right _ (taken.part.subset mem)
  · cases h
    exact ⟨⟨by simpa using listed, word⟩, token, id, List.suffix_refl _, fun c mem => by simp [mem], by simp⟩

/-! ### Members -/

/-- Details whose parts stay on one line, together with the name. -/
def SingleLineDetail (className name : String) : Detail → Prop
  | .superclass | .superinterface _ => SingleLine name.toList
  | .nested => ∀ simple, name = className ++ "$" ++ String.ofList simple → SingleLine simple
  | .field type constant =>
    SingleLine type.toList ∧ SingleLine name.toList ∧ ∀ c ∈ constant, SingleLine c.toList
  | .method parameters result arguments exceptions default =>
    (∀ list ∈ parameters, SingleLine list.toList) ∧ SingleLine result.toList ∧
      SingleLine name.toList ∧ SingleLine arguments.toList ∧
      (∀ e ∈ exceptions, SingleLine e.toList) ∧ ∀ value ∈ default, SingleLine value.toList
  | .constructor parameters arguments exceptions =>
    (∀ list ∈ parameters, SingleLine list.toList) ∧ SingleLine name.toList ∧
      SingleLine arguments.toList ∧ ∀ e ∈ exceptions, SingleLine e.toList

/-- The first token behind modifiers is no keyword. -/
theorem exists_taken_of_modifiers {line cs rest t behind : List Char} {set : Modifiers} {what : String}
    (marked : AfterModifiers line set rest cs) (taken : token line what rest = .ok (t, behind)) :
    Taken rest t behind ∧ NotKeyword t :=
  ⟨taken_of_token taken, marked.notKeyword t behind (token?_of_token taken)⟩

theorem singleLine_callToken {name arguments : List Char} :
    SingleLine (callToken name arguments) ↔ SingleLine name ∧ SingleLine arguments := by
  simp [callToken]

theorem of_methodRest {line cs rest : List Char} {set : Modifiers} {name : String} {detail : Detail}
    (className : String) (marked : AfterModifiers line set rest cs)
    (h : methodRest line rest = .ok (name, detail)) :
    detail.kind = .method ∧ SoundDetail className name detail ∧
      (SingleLine rest → SingleLineDetail className name detail) := by
  simp only [methodRest, bind_eq_ok_iff] at h
  obtain ⟨⟨t, behind⟩, first, ⟨parameters, result, after⟩, listed, ⟨call, last⟩, called,
    ⟨simple, arguments⟩, cut, ⟨exceptions, tail⟩, thrown, default, given, h⟩ := h
  cases h
  obtain ⟨outer, word⟩ := exists_taken_of_modifiers marked first
  obtain ⟨list, typed, -, behindType, inType, inList⟩ := of_typeParameters? word outer.token listed
  have calls := taken_of_token called
  obtain ⟨shape, sound⟩ := of_splitCall calls.token cut
  obtain ⟨exceptionsSound, behindThrows, inThrows⟩ := of_throws thrown
  have defaults := of_default? given
  have behindCall : last <:+ rest := (calls.suffix.trans behindType).trans outer.suffix
  refine ⟨rfl, ⟨?_, ?_, ?_, exceptionsSound, fun value mem => (defaults value mem).1⟩, fun single => ?_⟩
  · simpa using list
  · simpa using typed
  · simpa using sound
  · have front : SingleLine (t ++ behind) := by
      rw [← outer.whole]
      exact single.of_part (dropSpaces_suffix rest).isInfix
    have inCall : SingleLine (callToken simple arguments) := by
      rw [← shape]
      exact single.of_part (calls.part.trans (behindType.trans outer.suffix).isInfix)
    refine ⟨fun p mem => ?_, ?_, ?_, ?_, fun e mem => ?_, fun value mem => ?_⟩
    · rw [inList p mem]
      exact (SingleLine.append_iff.1 front).1
    · simpa using front.subset inType
    · simpa using (singleLine_callToken.1 inCall).1
    · simpa using (singleLine_callToken.1 inCall).2
    · exact (single.of_part behindCall.isInfix).subset (inThrows e mem)
    · exact (single.of_part (behindThrows.trans behindCall).isInfix).subset (defaults value mem).2

theorem of_constructorRest {line cs rest : List Char} {set : Modifiers} {name : String} {detail : Detail}
    (className : String) (marked : AfterModifiers line set rest cs)
    (h : constructorRest line rest = .ok (name, detail)) :
    detail.kind = .constructor ∧ SoundDetail className name detail ∧
      (SingleLine rest → SingleLineDetail className name detail) := by
  simp only [constructorRest, bind_eq_ok_iff] at h
  obtain ⟨⟨t, behind⟩, first, ⟨parameters, call, last⟩, listed, ⟨simple, arguments⟩, cut,
    ⟨exceptions, tail⟩, thrown, _, -, h⟩ := h
  cases h
  obtain ⟨outer, word⟩ := exists_taken_of_modifiers marked first
  obtain ⟨list, called, -, behindCall, inCall, inList⟩ := of_typeParameters? word outer.token listed
  obtain ⟨shape, sound⟩ := of_splitCall called cut
  obtain ⟨exceptionsSound, -, inThrows⟩ := of_throws thrown
  refine ⟨rfl, ⟨?_, ?_, exceptionsSound⟩, fun single => ?_⟩
  · simpa [← shape] using list
  · simpa using sound
  · have front : SingleLine (t ++ behind) := by
      rw [← outer.whole]
      exact single.of_part (dropSpaces_suffix rest).isInfix
    have inCall : SingleLine (callToken simple arguments) := by
      rw [← shape]
      exact front.subset inCall
    refine ⟨fun p mem => ?_, ?_, ?_, fun e mem => ?_⟩
    · rw [inList p mem]
      exact (SingleLine.append_iff.1 front).1
    · simpa using (singleLine_callToken.1 inCall).1
    · simpa using (singleLine_callToken.1 inCall).2
    · exact (single.of_part (behindCall.trans outer.suffix).isInfix).subset (inThrows e mem)

/-- A name that is alone on its line is a token and no keyword. -/
theorem of_nameRest {line cs rest : List Char} {set : Modifiers} {what name : String}
    {detail detail' : Detail} (marked : AfterModifiers line set rest cs)
    (h : nameRest line what detail rest = .ok (name, detail')) :
    detail' = detail ∧ IsToken name.toList ∧ NotKeyword name.toList ∧ name.toList ⊆ rest := by
  simp only [nameRest, bind_eq_ok_iff] at h
  obtain ⟨⟨t, behind⟩, first, _, -, h⟩ := h
  cases h
  obtain ⟨taken, word⟩ := exists_taken_of_modifiers marked first
  rw [String.toList_ofList]
  exact ⟨rfl, taken.token, word, taken.part.subset⟩

/-! ### Declarations -/

/-- A line of a field without its constant. -/
def beforeConstant (line : List Char) : List Char := ((cutAt? constantMark line).map Prod.fst).getD line

/-- The constant on a line of a field. -/
def constantOn? (line : List Char) : Option String := (cutAt? constantMark line).map fun parts => String.ofList parts.2

/-- A text declares a field of this type and name: behind its tag and its modifiers there are the two of them and
nothing else. -/
structure Declares (text : List Char) (set : Modifiers) (type name : List Char) : Prop where
  tokens : ∃ tag cs rest behind after, Taken text tag cs ∧ modifiers text cs = .ok (set, rest) ∧
    Taken rest type behind ∧ Taken behind name after ∧ dropSpaces after = []

/-- The rest of a line of a field is what its declaration and its constant say. -/
theorem fieldRest_eq_ok_iff {line : List Char} {name : String} {detail : Detail} :
    fieldRest line = .ok (name, detail) ↔ ∃ set type simple, Declares (beforeConstant line) set type simple ∧
      name = String.ofList simple ∧ detail = .field (String.ofList type) (constantOn? line) := by
  rw [fieldRest, toList_constantMark, beforeConstant, constantOn?]
  -- the tokens are those of the declaration, whether a constant follows it or not
  rcases cutAt? constantMark line with _ | ⟨front, constant⟩
  all_goals
    dsimp only [Option.map_none, Option.getD_none, Option.map_some, Option.getD_some]
    constructor
    · intro read
      simp only [bind_eq_ok_iff] at read
      obtain ⟨⟨tag, cs⟩, tagged, ⟨set, rest⟩, marked, ⟨type, behind⟩, typed, ⟨simple, after⟩, named,
        ⟨next, last⟩, ended, read⟩ := read
      cases next with
      | some extra => cases read
      | none =>
        cases read
        have nothing : dropSpaces after = [] := (token?_eq_none_iff.1 ended).1
        exact ⟨set, type, simple, ⟨tag, cs, rest, behind, after, taken_of_token tagged, marked,
          taken_of_token typed, taken_of_token named, nothing⟩, rfl, rfl⟩
    · rintro ⟨set, type, simple, ⟨tag, cs, rest, behind, after, tagged, marked, typed, named, nothing⟩, rfl, rfl⟩
      rw [tagged.token_eq, ok_bind, marked, ok_bind, typed.token_eq, ok_bind, named.token_eq, ok_bind,
        token?_eq_none_iff.2 ⟨nothing, rfl⟩]
      rfl

/-- The type and the name of a declaration without a mark of a constant in it. -/
theorem Declares.sound {text type name : List Char} {set : Modifiers} (declares : Declares text set type name)
    (clean : ¬constantMark <:+: text) :
    SoundField type name none ∧ type ⊆ text ∧ name ⊆ text ∧ (name = ['='] → [' ', '='] <:+ text) := by
  obtain ⟨tag, cs, rest, behind, after, tagged, marked, types, names, nothing⟩ := declares
  have shape := of_modifiers marked
  have word : NotKeyword type := shape.notKeyword type behind (types.token?_eq text)
  have whole : rest <:+ text := shape.suffix.trans tagged.suffix
  have behindWhole : behind <:+ text := types.suffix.trans whole
  have inType : type <:+: text := types.part.trans whole.isInfix
  have inName : name <:+: text := names.part.trans behindWhole.isInfix
  refine ⟨⟨types.token, word, fun h => clean (h.trans inType), ?_, names.token,
    fun h => clean (h.trans inName), by simp⟩, inType.subset, inName.subset, ?_⟩
  · rintro rfl
    -- a space is in front of the token, and one behind it because a name follows
    obtain ⟨lead, front⟩ := types.exists_space (shape.atSpace tagged.atSpace)
    obtain ⟨middle, back⟩ := names.exists_space types.atSpace
    have next : ∃ more, behind = ' ' :: more := by
      cases behind with
      | nil => simp at back
      | cons c more => exact ⟨more, by rw [types.atSpace c (by simp)]⟩
    obtain ⟨more, rfl⟩ := next
    apply clean
    refine List.IsInfix.trans ⟨lead, more, ?_⟩ whole.isInfix
    rw [front]
    simp [constantMark]
  · rintro rfl
    obtain ⟨lead, front⟩ := names.exists_space types.atSpace
    cases after with
    | nil =>
      refine List.IsSuffix.trans ⟨lead, ?_⟩ behindWhole
      rw [front]
      simp
    | cons c more =>
      exfalso
      obtain rfl : c = ' ' := names.atSpace c (by simp)
      apply clean
      refine List.IsInfix.trans ⟨lead, more, ?_⟩ behindWhole.isInfix
      rw [front]
      simp [constantMark]

theorem of_fieldRest {line : List Char} {name : String} {detail : Detail} (className : String)
    (h : fieldRest line = .ok (name, detail)) :
    detail.kind = .field ∧ SoundDetail className name detail ∧
      (SingleLine line → SingleLineDetail className name detail) := by
  obtain ⟨set, type, simple, declares, rfl, rfl⟩ := fieldRest_eq_ok_iff.1 h
  refine ⟨rfl, ?_⟩
  cases cut : cutAt? constantMark line with
  | none =>
    have front : beforeConstant line = line := by simp [beforeConstant, cut]
    have bare : constantOn? line = none := by simp [constantOn?, cut]
    rw [front] at declares
    rw [bare]
    obtain ⟨sound, inType, inName, -⟩ := declares.sound (cutAt?_eq_none_iff.1 cut)
    refine ⟨by simpa [SoundDetail] using sound, fun single => ⟨?_, ?_, by simp⟩⟩
    · simpa using single.subset inType
    · simpa using single.subset inName
  | some parts =>
    obtain ⟨declaration, constant⟩ := parts
    have front : beforeConstant line = declaration := by simp [beforeConstant, cut]
    have said : constantOn? line = some (String.ofList constant) := by simp [constantOn?, cut]
    rw [front] at declares
    rw [said]
    obtain ⟨whole, clean⟩ := (cutAt?_eq_some_iff (by simp [constantMark])).1 cut
    have unmarked : ¬constantMark <:+: declaration :=
      fun inside => clean (inside.trans (List.prefix_append _ _).isInfix)
    obtain ⟨sound, inType, inName, ending⟩ := declares.sound unmarked
    refine ⟨?_, fun single => ?_⟩
    · refine ⟨?_, ?_, ?_, ?_, ?_, ?_, fun _ => ?_⟩
      · simpa using sound.typeToken
      · simpa using sound.typeWord
      · simpa using sound.typeWhole
      · simpa using sound.typeNoMark
      · simpa using sound.nameToken
      · simpa using sound.nameWhole
      · rw [String.toList_ofList]
        intro same
        -- a mark would begin at the end of the declaration already
        obtain ⟨back, split⟩ := ending same
        apply clean
        exact ⟨back, ['='], by rw [← split]; simp [constantMark]⟩
    · rw [whole, SingleLine.append_iff, SingleLine.append_iff] at single
      refine ⟨?_, ?_, ?_⟩
      · simpa using single.1.1.subset inType
      · simpa using single.1.1.subset inName
      · simpa using single.2

/-- What follows the modifiers on a line that could be read has the shape that lines have, and its parts stay on one
line if the line did. -/
theorem of_detailRest {kind : MemberKind} {className name : String} {line cs rest : List Char} {set : Modifiers}
    {detail : Detail} (marked : AfterModifiers line set rest cs) (part : rest <:+: line)
    (h : detailRest kind className line rest = .ok (name, detail)) :
    detail.kind = kind ∧ SoundDetail className name detail ∧
      (SingleLine line → SingleLineDetail className name detail) := by
  cases kind with
  | superclass =>
    obtain ⟨rfl, token, word, inside⟩ := of_nameRest marked h
    exact ⟨rfl, ⟨token, word⟩, fun single => (single.of_part part).subset inside⟩
  | superinterface =>
    obtain ⟨rfl, token, word, inside⟩ := of_nameRest marked h
    exact ⟨rfl, ⟨rfl, token, word⟩, fun single => (single.of_part part).subset inside⟩
  | nested =>
    obtain ⟨⟨simple, plain⟩, inner, same⟩ := map_eq_ok_iff.1 h
    obtain ⟨rfl, token, word, inside⟩ := of_nameRest marked inner
    cases same
    refine ⟨rfl, ⟨simple.toList, by simp, token, word⟩, fun single other same => ?_⟩
    have back : simple = String.ofList other := by
      have := congrArg String.toList same
      simp only [String.toList_append, List.append_cancel_left_eq, String.toList_ofList] at this
      rw [← this, String.ofList_toList]
    rw [back, String.toList_ofList] at inside
    exact (single.of_part part).subset inside
  | field => exact of_fieldRest className h
  | method =>
    obtain ⟨kind, sound, single⟩ := of_methodRest className marked h
    exact ⟨kind, sound, fun whole => single (whole.of_part part)⟩
  | constructor =>
    obtain ⟨kind, sound, single⟩ := of_constructorRest className marked h
    exact ⟨kind, sound, fun whole => single (whole.of_part part)⟩

/-- What was read from a member line: a member of the shape that lines have, with modifiers that are
written and no annotations, whose parts stay on one line if the line did. -/
structure ReadMember (kind : MemberKind) (className : String) (line : List Char) (m : Member) : Prop where
  kind : m.kind = kind
  declaring : m.declaringClass = className
  bare : m.annotations = []
  written : Visible m.modifiers
  sound : SoundDetail className m.name m.detail
  singleLine : SingleLine line → SingleLineDetail className m.name m.detail

theorem readMember_of_parseMember {kind : MemberKind} {className : String} {line : List Char} {m : Member}
    (h : parseMember kind className line = .ok m) : ReadMember kind className line m := by
  obtain ⟨tag, cs, set, rest, name, detail, tagged, read, inner, rfl⟩ := parseMember_eq_ok_iff.1 h
  have marked := of_modifiers read
  have part : rest <:+: line := (marked.suffix.trans (taken_of_token tagged).suffix).isInfix
  obtain ⟨kind, sound, single⟩ := of_detailRest marked part inner
  exact ⟨kind, rfl, rfl, marked.written, sound, single⟩

/-- **Loose lines.** A member that was read, from any line at all, is read again from the line it prints as, whatever
names are short there: printing puts the parts in their usual places and drops none of them. -/
theorem parseMember_formatMember_of_parseMember {kind : MemberKind} {className : String} {line : List Char}
    {m : Member} (read : parseMember kind className line = .ok m) (scope : Erasure) :
    parseMember kind className (formatMember .full scope className m) = .ok m := by
  obtain ⟨sameKind, declaring, bare, written, sound, -⟩ := readMember_of_parseMember read
  have visible : m.modifiers.visible = m.modifiers := written
  calc parseMember kind className (formatMember .full scope className m)
      = .ok ⟨className, m.name, m.modifiers.visible, [], m.detail⟩ := by
        rw [← sameKind]
        exact parseMember_formatMember sound scope
    _ = .ok m := by rw [visible, ← declaring, ← bare]

/-- A line with modifiers out of order, spaces wherever they may stand, quotes and brackets inside a name, an
empty entry among the exceptions, and a default that looks like a value. -/
def looseMethod : List Char :=
  "METH static  public <K,V>  a.C<K>  pick['(',b c](K)  throws a.X,,a.Y  default x = (".toList

/-- The method that the loose line declares. -/
def pickMethod : Member :=
  (((Member.method "a.B" "pick['" (.ofList [.public, .static]) "a.C<K>" "',b c](K").withTypeParameters
    "<K,V>").withThrows ["a.X", "a.Y"]).withDefault "x = ("

theorem parseMember_formatMember_looseMethod :
    parseMember .method "a.B" looseMethod = .ok pickMethod ∧
      parseMember .method "a.B" (formatMember .full .empty "a.B" pickMethod) = .ok pickMethod := by
  have read : parseMember .method "a.B" looseMethod = .ok pickMethod := by rfl
  exact ⟨read, parseMember_formatMember_of_parseMember read .empty⟩

end ApiSurface.Line
