import ApiSurface.Line.Header
import ApiSurface.Proofs.Line.Accepted
import ApiSurface.Proofs.Ordered

/-!
The other lines of a class block, written and read. Main statements: a class header of the shape that
lines have is read back (`parseClassHeader_formatClassHeader`), so is a list of hidden names
(`parseHidden_formatHidden`), both readers give nothing else, and the kind of every line is told from its
beginning (`kind_formatMember`, `kind_classTag`, `kind_hiddenFieldsTag`, `kind_of_beginsUse`).
-/

namespace ApiSurface.Line

open ApiSurface.Text

/-! ### Class headers -/

/-- The name of a class with its type parameters, as one token. -/
def headerToken (name : String) (parameters : Option String) : List Char :=
  name.toList ++ (parameters.getD "").toList

/-- A class header that a line gives back. -/
structure SoundHeader (name : String) (parameters : Option String) : Prop where
  token : IsToken (headerToken name parameters)
  word : NotKeyword (headerToken name parameters)
  free : '<' ∉ name.toList
  listed : ∀ list ∈ parameters, list.toList.head? = some '<'

theorem isToken_classTag : IsToken classTag.toList :=
  ⟨by decide, clear_of_plain (List.Subset.refl _) (by decide)⟩

theorem formatClassHeader_full (set : Modifiers) {name : String} {parameters : Option String}
    (filled : headerToken name parameters ≠ []) :
    formatClassHeader .full ⟨set, name, parameters⟩ =
      classTag.toList ++ spaced (keywordTokens set ++ [headerToken name parameters]) := by
  have kept : (keywordTokens set).filter (!·.isEmpty) = keywordTokens set :=
    List.filter_eq_self.2 fun t mem => by simp [(keywordTokens_spec mem).1.filled]
  have named : [headerToken name parameters].filter (!·.isEmpty) = [headerToken name parameters] := by
    simp [filled]
  simp only [formatClassHeader, LineStyle.full, if_true]
  rw [← headerToken, List.append_assoc, List.singleton_append, joinTokens_cons isToken_classTag.filled,
    List.filter_append, kept, named]

/-- The type parameters begin at the first angle bracket. -/
theorem cutBefore_headerToken {name : String} {parameters : Option String}
    (sound : SoundHeader name parameters) :
    cutBefore (· == '<') (headerToken name parameters) = (name.toList, (parameters.getD "").toList) := by
  refine cutBefore_append (fun c mem => ?_) fun c mem => ?_
  · have differ : c ≠ '<' := fun same => sound.free (same ▸ mem)
    simpa using differ
  · cases parameters with
    | none => simp at mem
    | some list =>
      have starts := sound.listed list rfl
      cases chars : list.toList with
      | nil => simp [chars] at starts
      | cons d ds =>
        obtain rfl : d = c := by simpa [chars] using mem
        simpa [chars] using starts

/-- A class header of the shape that lines have is read back. -/
theorem parseClassHeader_formatClassHeader {name : String} {parameters : Option String}
    (sound : SoundHeader name parameters) (set : Modifiers) :
    parseClassHeader (formatClassHeader .full ⟨set, name, parameters⟩) =
      .ok ⟨set.visible, name, parameters⟩ := by
  have ends := atSpace_spaced_append (keywordTokens set ++ [headerToken name parameters]) atSpace_nil
  have next (line : List Char) := token?_detail sound.token line
  have tagged (line : List Char) := token_append isToken_classTag line classTag ends
  have marked (line : List Char) := modifiers_spaced set sound.word (next line) (atSpace_cons _)
  simp only [List.append_nil, spaced_append] at tagged
  have shape : (⟨set.visible, name, if (parameters.getD "").toList.isEmpty then none
      else some (String.ofList (parameters.getD "").toList)⟩ : ClassHeader) =
        ⟨set.visible, name, parameters⟩ := by
    cases parameters with
    | none => rfl
    | some list =>
      have filled : list ≠ "" := by
        rintro rfl
        have starts := sound.listed "" rfl
        simp at starts
      simp [filled]
  rw [formatClassHeader_full set sound.token.filled, spaced_append, parseClassHeader]
  simp only [tagged, ok_bind, marked, token_of_token? (next _), token?_nil,
    cutBefore_headerToken sound, String.ofList_toList, Option.isSome_none]
  simpa using shape

theorem getD_unless_empty (t : List Char) :
    ((if t.isEmpty then none else some (String.ofList t)).getD "").toList = t := by
  cases t <;> simp

/-- A class header that was read has the shape that lines have. -/
theorem sound_of_parseClassHeader {line : List Char} {h : ClassHeader}
    (read : parseClassHeader line = .ok h) :
    SoundHeader h.name h.typeParameters ∧ Visible h.modifiers ∧
      (SingleLine line → SingleLine (headerToken h.name h.typeParameters)) := by
  simp only [parseClassHeader, bind_eq_ok_iff] at read
  obtain ⟨⟨tag, cs⟩, tagged, ⟨set, rest⟩, marked, ⟨t, behind⟩, named, ⟨more, last⟩, -, read⟩ := read
  dsimp only at read
  split at read
  · cases read
  obtain ⟨taken, word⟩ := exists_taken_of_modifiers (of_modifiers marked) named
  cases read
  have cut : t = t.takeWhile (fun c => !(c == '<')) ++ t.dropWhile (fun c => !(c == '<')) :=
    (List.takeWhile_append_dropWhile).symm
  have whole : headerToken (String.ofList (cutBefore (· == '<') t).1)
      (if (cutBefore (· == '<') t).2.isEmpty then none else some (String.ofList (cutBefore (· == '<') t).2)) =
        t := by
    conv => rhs; rw [cut]
    simp only [headerToken, cutBefore, String.toList_ofList]
    exact congrArg _ (getD_unless_empty _)
  refine ⟨⟨by rw [whole]; exact taken.token, by rw [whole]; exact word, ?_, fun list mem => ?_⟩,
    (of_modifiers marked).written, fun single => ?_⟩
  · rw [String.toList_ofList]
    intro mem
    simpa using List.mem_takeWhile_imp mem
  · dsimp only at mem
    split_ifs at mem with none
    · cases mem
    · obtain rfl : list = String.ofList (cutBefore (· == '<') t).2 := by simpa using mem.symm
      rw [String.toList_ofList]
      have stop := List.head?_dropWhile_not (fun c => !(c == '<')) t
      simp only [cutBefore] at none ⊢
      cases chars : t.dropWhile (fun c => !(c == '<')) with
      | nil => simp [chars] at none
      | cons c cs =>
        rw [chars] at stop
        have same : c = '<' := by simpa using stop
        rw [same]
        rfl
  · rw [whole]
    have inside := (taken.part.trans (of_modifiers marked).suffix.isInfix).trans
      (taken_of_token tagged).suffix.isInfix
    exact single.of_part inside

/-! ### Hidden names -/

/-- Hidden names that a line gives back. -/
def SoundHidden (names : Ordered.Set String) : Prop :=
  ∀ name ∈ names.toList, name ≠ "" ∧ Trimmed name.toList ∧ ',' ∉ name.toList

/-- Hidden names are read back. -/
theorem parseHidden_formatHidden (tag : String) (free : ' ' ∉ tag.toList) {names : Ordered.Set String}
    (sound : SoundHidden names) : parseHidden (formatHidden tag names) = names := by
  have cut : cutAt? [' '] (formatHidden tag names) =
      some (tag.toList, join [','] (names.toList.map String.toList)) := cutAt?_singleton free
  have listed : ((pieces ',' (join [','] (names.toList.map String.toList))).map trim).filter (!·.isEmpty) =
      names.toList.map String.toList := by
    cases all : names.toList with
    | nil => simp [pieces, trim]
    | cons name more =>
      rw [SoundHidden, all] at sound
      rw [pieces_join (by simp) fun p mem => ?_]
      · have trims : ((name :: more).map String.toList).map trim = (name :: more).map String.toList := by
          rw [List.map_map]
          exact List.map_congr_left fun n mem => (sound n mem).2.1.trim_eq
        rw [trims]
        exact List.filter_eq_self.2 fun p mem => by
          obtain ⟨n, inList, rfl⟩ := List.mem_map.1 mem
          simp [(sound n inList).1]
      · obtain ⟨n, inList, rfl⟩ := List.mem_map.1 mem
        exact (sound n inList).2.2
  have back : (names.toList.map String.toList).map String.ofList = names.toList := by
    simp [Function.comp_def]
  rw [parseHidden, cut]
  simp only [listed, back]
  exact Ordered.Set.ofList_toList names

/-- Hidden names that were read are the trimmed names of a list. -/
theorem sound_of_parseHidden (line : List Char) :
    SoundHidden (parseHidden line) ∧
      (SingleLine line → ∀ name ∈ (parseHidden line).toList, SingleLine name.toList) := by
  unfold parseHidden
  split
  · exact ⟨fun name mem => (by cases mem), fun _ name mem => (by cases mem)⟩
  · rename_i tag body cut
    have part : body <:+ line := by
      rw [(of_cutAt?_singleton cut).1]
      exact ⟨tag ++ [' '], by simp⟩
    have spec : ∀ name ∈ (Ordered.Set.ofList
        (((pieces ',' body).map trim).filter (!·.isEmpty) |>.map String.ofList)).toList,
          ∃ p ∈ pieces ',' body, name.toList = trim p ∧ trim p ≠ [] := by
      intro name mem
      rw [Ordered.Set.mem_ofList, List.mem_map] at mem
      obtain ⟨t, inList, rfl⟩ := mem
      rw [List.mem_filter, List.mem_map] at inList
      obtain ⟨⟨p, inPieces, rfl⟩, filled⟩ := inList
      exact ⟨p, inPieces, by simp, by simpa using filled⟩
    refine ⟨fun name mem => ?_, fun single name mem => ?_⟩
    · obtain ⟨p, inPieces, same, filled⟩ := spec name mem
      refine ⟨fun none => filled ?_, same ▸ trimmed_trim p, fun comma => ?_⟩
      · rw [← same, none]
        rfl
      · rw [same] at comma
        exact (mem_of_mem_pieces inPieces).1 (mem_of_mem_trim comma)
    · obtain ⟨p, inPieces, same, -⟩ := spec name mem
      rw [same]
      exact single.subset fun c inside =>
        part.subset ((mem_of_mem_pieces inPieces).2 c (mem_of_mem_trim inside))

theorem singleLine_formatHidden {tag : String} (htag : SingleLine tag.toList) {names : Ordered.Set String}
    (h : ∀ name ∈ names.toList, SingleLine name.toList) : SingleLine (formatHidden tag names) := by
  rw [formatHidden, SingleLine.append_iff, SingleLine.cons_iff]
  refine ⟨htag, by decide, SingleLine.join (by simp) fun p mem => ?_⟩
  obtain ⟨name, inList, rfl⟩ := List.mem_map.1 mem
  exact h name inList

/-! ### Kinds of lines -/

theorem firstWord_append {word : List Char} (free : ' ' ∉ word) (rest : List Char) :
    firstWord (word ++ ' ' :: rest) = word := by
  have front : ∀ c ∈ word, (c != ' ') = true := by
    intro c mem
    have differ : c ≠ ' ' := fun same => free (same ▸ mem)
    simp [differ]
  simp [firstWord, List.takeWhile_append_of_pos front]

/-- A line that begins with the tag of a member. -/
theorem kind_tag (kind : MemberKind) (rest : List Char) :
    LineKind.of (kind.tag.toList ++ ' ' :: rest) = .member kind := by
  have word : firstWord (kind.tag.toList ++ ' ' :: rest) = kind.tag.toList :=
    firstWord_append (by cases kind <;> decide) rest
  have noModule : moduleLead.isPrefixOf (kind.tag.toList ++ ' ' :: rest) = false := by
    cases kind <;> rfl
  have noUse : beginsUse (kind.tag.toList ++ ' ' :: rest) = false := by
    cases kind <;> rfl
  have others : kind.tag ≠ classTag ∧ kind.tag ≠ hiddenFieldsTag ∧ kind.tag ≠ hiddenClassesTag := by
    cases kind <;> decide
  simp [LineKind.of, word, noModule, noUse, others]

/-- The line of a member tells its kind. -/
theorem kind_formatMember (scope : Erasure) (className : String) (m : Member) :
    LineKind.of (formatMember .full scope className m) = .member m.kind := by
  rw [formatMember_full, detailText, ← spaced_append]
  have spaces := atSpace_spaced_append (keywordTokens m.modifiers ++ (detailTokens .full
    (scope.nest (m.detail.typeParameters?.map String.toList)) className m).filter (!·.isEmpty)) atSpace_nil
  rw [List.append_nil] at spaces
  generalize spaced _ = rest at spaces ⊢
  cases rest with
  | nil => cases m.kind <;> decide
  | cons c rest =>
    obtain rfl : c = ' ' := spaces c (by simp)
    exact kind_tag m.kind rest

theorem kind_classTag (rest : List Char) :
    LineKind.of (classTag.toList ++ ' ' :: rest) = .classHeader := by
  have word : firstWord (classTag.toList ++ ' ' :: rest) = classTag.toList :=
    firstWord_append (by decide) rest
  have noModule : moduleLead.isPrefixOf (classTag.toList ++ ' ' :: rest) = false := rfl
  simp [LineKind.of, word, noModule]

theorem kind_hiddenFieldsTag (rest : List Char) :
    LineKind.of (hiddenFieldsTag.toList ++ ' ' :: rest) = .hiddenFields := by
  have word : firstWord (hiddenFieldsTag.toList ++ ' ' :: rest) = hiddenFieldsTag.toList :=
    firstWord_append (by decide) rest
  have noModule : moduleLead.isPrefixOf (hiddenFieldsTag.toList ++ ' ' :: rest) = false := rfl
  have others : hiddenFieldsTag ≠ classTag := by decide
  simp [LineKind.of, word, noModule, others]

theorem kind_hiddenClassesTag (rest : List Char) :
    LineKind.of (hiddenClassesTag.toList ++ ' ' :: rest) = .hiddenClasses := by
  have word : firstWord (hiddenClassesTag.toList ++ ' ' :: rest) = hiddenClassesTag.toList :=
    firstWord_append (by decide) rest
  have noModule : moduleLead.isPrefixOf (hiddenClassesTag.toList ++ ' ' :: rest) = false := rfl
  have others : hiddenClassesTag ≠ classTag ∧ hiddenClassesTag ≠ hiddenFieldsTag := by decide
  simp [LineKind.of, word, noModule, others]

/-- A line that begins like an annotation. -/
theorem kind_of_beginsUse {line : List Char} (h : beginsUse line = true) : LineKind.of line = .annotated := by
  have lead : ∃ word rest, (word = "anno".toList ∨ word = "annoEx".toList) ∧ line = word ++ ' ' :: rest := by
    simp only [beginsUse, Bool.or_eq_true, Option.isSome_iff_exists, afterLead?_eq_some_iff] at h
    rcases h with ⟨rest, rfl⟩ | ⟨rest, rfl⟩
    · exact ⟨_, rest, .inl rfl, rfl⟩
    · exact ⟨_, rest, .inr rfl, rfl⟩
  obtain ⟨word, rest, known, rfl⟩ := lead
  have first : firstWord (word ++ ' ' :: rest) = word :=
    firstWord_append (by rcases known with rfl | rfl <;> decide) rest
  have noModule : moduleLead.isPrefixOf (word ++ ' ' :: rest) = false := by
    rcases known with rfl | rfl <;> rfl
  have others : String.ofList word ≠ classTag ∧ String.ofList word ≠ hiddenFieldsTag ∧
      String.ofList word ≠ hiddenClassesTag := by
    rcases known with rfl | rfl <;> decide
  simp [LineKind.of, first, noModule, others, h]

end ApiSurface.Line
