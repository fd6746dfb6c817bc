import ApiSurface.Legacy
import ApiSurface.Proofs.Line.Header
import ApiSurface.Proofs.Literal.Encoded

/-!
Lines in old spellings. Only lines of fields, methods and constructors are ever changed. Main statements: any
other line is its own old spelling (`LegacyRule.Transparent.of_kind`), the tokens of an old line are those
that were joined (`cutTokens_spaced`), and the constant of a field is read back from its old spelling
(`decodeField_fieldLine`).
-/

namespace ApiSurface

open ApiSurface.Text ApiSurface.Line

namespace LegacyRule

/-- The old spelling of a line; a line without one stays as it is. -/
def spelled (rules : List LegacyRule) (className : String) (line : List Char) : List Char :=
  match encodeAll className rules line with
  | .ok old => old
  | .error _ => line

/-- A line whose old spelling is written, stays on one line and is read as the line. -/
structure Transparent (rules : List LegacyRule) (className : String) (line : List Char) : Prop where
  encodes : encodeAll className rules line = .ok (spelled rules className line)
  decodes : decodeAll className rules (spelled rules className line) = .ok (some line)
  kind : LineKind.of (spelled rules className line) = LineKind.of line
  singleLine : SingleLine (spelled rules className line)

variable {rules : List LegacyRule} {className : String} {line old : List Char}

theorem Transparent.of_encoded (encodes : encodeAll className rules line = .ok old)
    (decodes : decodeAll className rules old = .ok (some line)) (kind : LineKind.of old = LineKind.of line)
    (singleLine : SingleLine old) : Transparent rules className line := by
  have same : spelled rules className line = old := by rw [spelled, encodes]
  exact ⟨by rw [same, encodes], by rw [same, decodes], by rw [same, kind], by rwa [same]⟩

/-! ### Lines that stay -/

/-- The tag of a member tells the kind of its line. -/
theorem kind_of_ofTag? {kind : MemberKind} (tagged : MemberKind.ofTag? (String.ofList (firstWord line)) = some kind) :
    LineKind.of line = .member kind := by
  have tag : firstWord line = kind.tag.toList := by
    have named := List.find?_some tagged
    rw [← String.toList_ofList (l := firstWord line), ← beq_iff_eq.1 named]
  obtain ⟨rest, whole⟩ : firstWord line <+: line := List.takeWhile_prefix _
  rw [tag] at whole
  cases rest with
  | nil =>
    rw [List.append_nil] at whole
    rw [← whole]
    cases kind <;> decide
  | cons c rest =>
    have ends : c = ' ' := by
      by_contra other
      have longer : firstWord line = kind.tag.toList ++ firstWord (c :: rest) := by
        rw [← whole, firstWord, List.takeWhile_append_of_pos fun d mem => by cases kind <;> revert d <;> decide]
        rfl
      rw [tag, firstWord, List.takeWhile_cons_of_pos (by simpa using other)] at longer
      simpa using congrArg List.length longer
    rw [← whole, ends]
    exact kind_tag kind rest

theorem kind_of_isFieldLine (h : Legacy.isFieldLine line = true) : LineKind.of line = .member .field := by
  obtain ⟨rest, rfl⟩ := List.isPrefixOf_iff_prefix.1 h
  exact kind_tag .field rest

theorem kind_of_isConstructorLine (h : Legacy.isConstructorLine line = true) :
    LineKind.of line = .member .constructor := by
  obtain ⟨rest, rfl⟩ := List.isPrefixOf_iff_prefix.1 h
  exact kind_tag .constructor rest

theorem encodeField_eq_self (other : LineKind.of line ≠ .member .field) : Legacy.encodeField line = .ok line := by
  have noField : Legacy.isFieldLine line = false := by
    rw [← Bool.not_eq_true]
    exact fun h => other (kind_of_isFieldLine h)
  simp [Legacy.encodeField, noField]

theorem decodeField_eq_self (other : LineKind.of line ≠ .member .field) : Legacy.decodeField line = .ok line := by
  have noField : Legacy.isFieldLine line = false := by
    rw [← Bool.not_eq_true]
    exact fun h => other (kind_of_isFieldLine h)
  simp [Legacy.decodeField, noField]

theorem renameConstructor_eq_self (other : LineKind.of line ≠ .member .constructor) (a b : List Char) :
    Legacy.renameConstructor a b line = .ok line := by
  have noConstructor : Legacy.isConstructorLine line = false := by
    rw [← Bool.not_eq_true]
    exact fun h => other (kind_of_isConstructorLine h)
  simp [Legacy.renameConstructor, noConstructor]

/-- The kinds of lines that no rule ever changes. -/
def Untouched (kind : LineKind) : Prop :=
  kind ≠ .member .field ∧ kind ≠ .member .method ∧ kind ≠ .member .constructor

theorem changeTypes_eq_self (other : Untouched (LineKind.of line)) (change : List Char → List Char) :
    Legacy.changeTypes change line = .ok line := by
  unfold Legacy.changeTypes
  split
  · rename_i tagged
    exact absurd (kind_of_ofTag? tagged) other.1
  · rename_i tagged
    exact absurd (kind_of_ofTag? tagged) other.2.1
  · rename_i tagged
    exact absurd (kind_of_ofTag? tagged) other.2.2
  · rfl

theorem encode_eq_self (other : Untouched (LineKind.of line)) (rule : LegacyRule) :
    rule.encode className line = .ok line := by
  cases rule with
  | nullSuper => rfl
  | vmArrays => exact changeTypes_eq_self other _
  | initConstructors => exact renameConstructor_eq_self other.2.2 _ _
  | encodedConstants => exact encodeField_eq_self other.1

theorem decode_eq_self (other : Untouched (LineKind.of line)) (noNull : line ≠ Legacy.nullSuperLine.toList)
    (rule : LegacyRule) : rule.decode className line = .ok (some line) := by
  cases rule with
  | nullSuper => rw [decode, if_neg noNull]
  | vmArrays => rw [decode, changeTypes_eq_self other, map_ok]
  | initConstructors => rw [decode, renameConstructor_eq_self other.2.2, map_ok]
  | encodedConstants => rw [decode, decodeField_eq_self other.1, map_ok]

/-- A line is kept by rules each of which keeps it. -/
theorem encodeAll_eq_self (each : ∀ rule ∈ rules, rule.encode className line = .ok line) :
    encodeAll className rules line = .ok line := by
  induction rules with
  | nil => rfl
  | cons rule rules ih =>
    simp only [encodeAll, ih fun r mem => each r (by simp [mem]), each rule (by simp)]

theorem decodeAll_eq_self (each : ∀ rule ∈ rules, rule.decode className line = .ok (some line)) :
    decodeAll className rules line = .ok (some line) := by
  induction rules with
  | nil => rfl
  | cons rule rules ih =>
    simp only [decodeAll, each rule (by simp), ih fun r mem => each r (by simp [mem])]

/-- The line for no superclass says nothing, if there is a rule for it. -/
theorem decodeAll_nullSuperLine (listed : LegacyRule.nullSuper ∈ rules) :
    decodeAll className rules Legacy.nullSuperLine.toList = .ok none := by
  have untouched : Untouched (LineKind.of Legacy.nullSuperLine.toList) := by
    refine ⟨?_, ?_, ?_⟩ <;> decide
  induction rules with
  | nil => cases listed
  | cons rule rules ih =>
    cases rule with
    | nullSuper => simp [decodeAll, decode]
    | vmArrays =>
      simp [decodeAll, decode, changeTypes_eq_self untouched, ih (by simpa using listed)]
    | initConstructors =>
      simp [decodeAll, decode, renameConstructor_eq_self untouched.2.2, ih (by simpa using listed)]
    | encodedConstants =>
      simp [decodeAll, decode, decodeField_eq_self untouched.1, ih (by simpa using listed)]

/-- No rule but the one for it leaves a line out. -/
theorem decodeAll_ne_none (free : nullSuper ∉ rules) : decodeAll className rules line ≠ .ok none := by
  induction rules generalizing line with
  | nil => simp [decodeAll]
  | cons rule rules ih =>
    obtain ⟨other, later⟩ := List.ne_and_not_mem_of_not_mem_cons free
    intro none
    rw [decodeAll] at none
    split at none
    · cases none
    · rename_i dropped
      cases rule with
      | nullSuper => exact other rfl
      | vmArrays | initConstructors | encodedConstants =>
        rw [decode, map_eq_ok_iff] at dropped
        obtain ⟨text, -, same⟩ := dropped
        cases same
    · exact ih later none

/-- A line of another kind stays as it is. -/
theorem decodeAll_untouched (other : Untouched (LineKind.of line)) (noSuper : LineKind.of line ≠ .member .superclass) :
    decodeAll className rules line = .ok (some line) := by
  have noNull : line ≠ Legacy.nullSuperLine.toList := by
    rintro rfl
    exact noSuper (by decide)
  exact decodeAll_eq_self fun rule _ => decode_eq_self other noNull rule

theorem decodeAll_annotated (kind : LineKind.of line = .annotated) :
    decodeAll className rules line = .ok (some line) := by
  apply decodeAll_untouched <;> rw [kind]
  · refine ⟨?_, ?_, ?_⟩ <;> decide
  · decide

/-- A line of another kind is its own old spelling. -/
theorem Transparent.of_kind (other : Untouched (LineKind.of line)) (noNull : line ≠ Legacy.nullSuperLine.toList)
    (single : SingleLine line) (rules : List LegacyRule) (className : String) : Transparent rules className line :=
  .of_encoded (encodeAll_eq_self fun rule _ => encode_eq_self other rule)
    (decodeAll_eq_self fun rule _ => decode_eq_self other noNull rule) rfl single

end LegacyRule

namespace Legacy

/-! ### Tokens -/

/-- A text that a line gives back as one token when square brackets do not count either. -/
structure IsOldToken (t : List Char) : Prop where
  filled : t ≠ []
  clear : Clear legacyBrackets [' '] t

theorem legacyBrackets_subset : legacyBrackets ⊆ brackets := by decide

theorem IsOldToken.of_plain {t : List Char} (filled : t ≠ []) (plain : ∀ c ∈ t, c ∉ marks ∧ c ∉ [' ']) :
    IsOldToken t :=
  ⟨filled, clear_of_plain legacyBrackets_subset plain⟩

theorem isOldToken_tag (kind : MemberKind) : IsOldToken kind.tag.toList := by
  cases kind <;> exact .of_plain (by decide) (by decide)

theorem isOldToken_keyword {set : Modifiers} {t : List Char} (mem : t ∈ keywordTokens set) :
    IsOldToken t ∧ '"' ∉ t := by
  simp only [keywordTokens, Modifiers.keywords, List.mem_map, List.mem_filterMap] at mem
  obtain ⟨word, ⟨m, -, keyword⟩, rfl⟩ := mem
  cases m <;> simp only [Modifier.keyword?, Option.some.injEq, reduceCtorEq] at keyword <;>
    subst keyword <;> exact ⟨.of_plain (by decide) (by decide), by decide⟩

/-- The tokens of a line are clear of spaces, and the line is made of them. -/
theorem cutTokens_eq_ok_iff {line : List Char} {tokens : List (List Char)} :
    cutTokens line = .ok tokens ↔
      tokens ≠ [] ∧ line = join [' '] tokens ∧ ∀ t ∈ tokens, Clear legacyBrackets [' '] t := by
  rw [← segments_eq_ok_iff, cutTokens]
  cases segments legacyBrackets ' ' line <;> simp [liftBrackets, fail]

/-- Pieces that are joined by spaces are cut again. -/
theorem cutTokens_join {pieces : List (List Char)} (filled : pieces ≠ [])
    (clear : ∀ p ∈ pieces, Clear legacyBrackets [' '] p) : cutTokens (join [' '] pieces) = .ok pieces :=
  cutTokens_eq_ok_iff.2 ⟨filled, rfl, clear⟩

/-- The tokens of a line are those that were joined. -/
theorem cutTokens_spaced {t : List Char} {ts : List (List Char)} (tokens : ∀ u ∈ t :: ts, IsOldToken u) :
    cutTokens (t ++ spaced ts) = .ok (t :: ts) := by
  have whole : t ++ spaced ts = join [' '] (t :: ts) := by rw [join_eq_append_flatMap, spaced]
  rw [whole]
  exact cutTokens_join (by simp) fun p mem => (tokens p mem).clear

theorem filled_eq_self {ts : List (List Char)} (tokens : ∀ u ∈ ts, IsOldToken u) : filled ts = ts :=
  List.filter_eq_self.2 fun u mem => by simp [(tokens u mem).filled]

theorem filled_append (front back : List (List Char)) : filled (front ++ back) = filled front ++ filled back :=
  List.filter_append _ _

theorem filled_empty (more : List (List Char)) : filled ([] :: more) = filled more := rfl

theorem filled_cons_of_ne {t : List Char} (some : t ≠ []) (more : List (List Char)) :
    filled (t :: more) = t :: filled more :=
  List.filter_cons_of_pos (by simpa using some)

/-- Keywords and then a word that is none: its place is behind them. -/
theorem placeAfterModifiers_keywords (tag : List Char) (set : Modifiers) {t : List Char} (word : NotKeyword t)
    (more : List (List Char)) :
    placeAfterModifiers (tag :: (keywordTokens set ++ t :: more)) = 1 + (keywordTokens set).length := by
  have keywords : ∀ u ∈ keywordTokens set, (Modifier.ofKeyword? (String.ofList u)).isSome := by
    intro u mem
    simp only [keywordTokens, Modifiers.keywords, List.mem_map, List.mem_filterMap] at mem
    obtain ⟨name, ⟨m, -, keyword⟩, rfl⟩ := mem
    rw [String.ofList_toList, Modifier.ofKeyword?_keyword? keyword]
    rfl
  have other : Modifier.ofKeyword? (String.ofList t) = none := word
  simp [placeAfterModifiers, List.takeWhile_append_of_pos keywords, other]

/-! ### Constants -/

theorem fieldType_eq_ok_iff {front type : List Char} :
    fieldType front = .ok type ↔
      ∃ tokens, cutTokens front = .ok tokens ∧
        (filled tokens)[placeAfterModifiers (filled tokens)]? = some type := by
  unfold fieldType
  rw [bind_eq_ok_iff]
  refine exists_congr fun tokens => and_congr_right fun _ => ?_
  split
  · rename_i t found
    rw [found, pure_eq_ok_except, Except.ok.injEq, Option.some.injEq]
  · rename_i missing
    simp [missing, Line.fail]

theorem isFieldLine_append {front : List Char} (field : isFieldLine front = true) (rest : List Char) :
    isFieldLine (front ++ rest) = true :=
  List.isPrefixOf_iff_prefix.2 ((List.isPrefixOf_iff_prefix.1 field).trans (List.prefix_append _ _))

/-- A constant is taken off a line and put there in its old spelling. -/
theorem encodeField_append {front type : List Char} (field : isFieldLine front = true)
    (typed : fieldType front = .ok type) (whole : ¬" = ".toList <:+: front ++ " = ".toList.dropLast)
    (modern : List Char) :
    encodeField (front ++ " = ".toList ++ modern) =
      .ok (front ++ constantMark ++ (Literal.encodeConstant type modern ++ constantEnd)) := by
  have cut : cutAt? " = ".toList (front ++ " = ".toList ++ modern) = some (front, modern) :=
    (cutAt?_eq_some_iff (by decide)).2 ⟨rfl, whole⟩
  have line : isFieldLine (front ++ " = ".toList ++ modern) = true := by
    rw [List.append_assoc]
    exact isFieldLine_append field _
  simp only [encodeField, line, Bool.not_true, Bool.false_eq_true, if_false, cut, typed, ok_bind]
  rw [List.append_assoc (front ++ constantMark)]
  rfl

/-- An old constant is taken off a line and put there in the spelling of today. -/
theorem decodeField_append {front type old modern : List Char} (field : isFieldLine front = true)
    (typed : fieldType front = .ok type) (whole : ¬constantMark <:+: front ++ constantMark.dropLast)
    (read : Literal.decodeConstant type old = .ok modern) :
    decodeField (front ++ constantMark ++ (old ++ constantEnd)) = .ok (front ++ " = ".toList ++ modern) := by
  have cut : cutAt? constantMark (front ++ constantMark ++ (old ++ constantEnd)) = some (front, old ++ constantEnd) :=
    (cutAt?_eq_some_iff (by decide)).2 ⟨rfl, whole⟩
  have line : isFieldLine (front ++ constantMark ++ (old ++ constantEnd)) = true := by
    rw [List.append_assoc]
    exact isFieldLine_append field _
  simp only [decodeField, line, Bool.not_true, Bool.false_eq_true, if_false, cut, beforeTail?_append, typed, ok_bind,
    read]
  rfl

/-- The line of a field without its constant. -/
def declaration (set : Modifiers) (type name : List Char) : List Char :=
  MemberKind.field.tag.toList ++ spaced (keywordTokens set ++ [type, name])

variable {set : Modifiers} {type name : List Char}

theorem fieldType_declaration (word : NotKeyword type) (typed : IsOldToken type) (named : IsOldToken name) :
    fieldType (declaration set type name) = .ok type := by
  have tokens : ∀ u ∈ MemberKind.field.tag.toList :: (keywordTokens set ++ [type, name]), IsOldToken u := by
    intro u mem
    simp only [List.mem_cons, List.mem_append, List.not_mem_nil, or_false] at mem
    rcases mem with rfl | mem | rfl | rfl
    · exact isOldToken_tag .field
    · exact (isOldToken_keyword mem).1
    · exact typed
    · exact named
  have place := placeAfterModifiers_keywords MemberKind.field.tag.toList set word [name]
  have found : (MemberKind.field.tag.toList :: (keywordTokens set ++ [type, name]))[1 + (keywordTokens set).length]? =
      some type := by
    rw [Nat.add_comm, List.getElem?_cons_succ, List.getElem?_append_right (Nat.le_refl _)]
    simp
  exact fieldType_eq_ok_iff.2 ⟨_, cutTokens_spaced tokens, by rw [filled_eq_self tokens, place, found]⟩

/-- A declaration holds quotes only if its type or its name does. -/
theorem quote_notMem_declaration (typed : '"' ∉ type) (named : '"' ∉ name) : '"' ∉ declaration set type name := by
  intro mem
  rcases List.mem_append.1 mem with mem | mem
  · exact absurd mem (by decide)
  · rcases mem_spaced mem with space | ⟨t, inTokens, inside⟩
    · exact absurd space (by decide)
    · simp only [List.mem_append, List.mem_cons, List.not_mem_nil, or_false] at inTokens
      rcases inTokens with keyword | rfl | rfl
      · exact (isOldToken_keyword keyword).2 inside
      · exact typed inside
      · exact named inside

theorem isFieldLine_declaration (set : Modifiers) (type name : List Char) :
    isFieldLine (declaration set type name) = true := by
  have starts : ∃ more, spaced (keywordTokens set ++ [type, name]) = ' ' :: more := by
    cases keywordTokens set <;> exact ⟨_, rfl⟩
  obtain ⟨more, starts⟩ := starts
  rw [declaration, starts]
  exact List.isPrefixOf_iff_prefix.2 ⟨more, by simp [MemberKind.tag]⟩

/-- The line of a field with this text behind its name. -/
def fieldLine (set : Modifiers) (type name mark constant : List Char) : List Char :=
  declaration set type name ++ mark ++ constant

theorem kind_fieldLine (set : Modifiers) (type name mark constant : List Char) :
    LineKind.of (fieldLine set type name mark constant) = .member .field := by
  rw [fieldLine, List.append_assoc]
  exact LegacyRule.kind_of_isFieldLine (isFieldLine_append (isFieldLine_declaration set type name) _)

/-- A constant is taken off its field and put there in its old spelling. -/
theorem encodeField_fieldLine {constant : String}
    (sound : SoundField type name (some constant)) (typed : IsOldToken type) (named : IsOldToken name) :
    encodeField (fieldLine set type name " = ".toList constant.toList) =
      .ok (fieldLine set type name constantMark (Literal.encodeConstant type constant.toList ++ constantEnd)) := by
  have clean := sound.declaration set
  rw [Option.isSome_some, if_pos rfl, spaced_append, ← List.append_assoc] at clean
  exact encodeField_append (isFieldLine_declaration set type name) (fieldType_declaration sound.typeWord typed named)
    clean constant.toList

/-- An old constant is taken off its field and put there in the spelling of today. -/
theorem decodeField_fieldLine {constant : List Char} (word : NotKeyword type) (typed : IsOldToken type)
    (named : IsOldToken name) (noQuote : '"' ∉ type ∧ '"' ∉ name) (literal : Literal.IsLiteralOf type constant) :
    decodeField (fieldLine set type name constantMark (Literal.encodeConstant type constant ++ constantEnd)) =
      .ok (fieldLine set type name " = ".toList constant) := by
  refine decodeField_append (isFieldLine_declaration set type name) (fieldType_declaration word typed named)
    (fun occurs => ?_) (Literal.decodeConstant_encodeConstant literal)
  have quote : '"' ∈ declaration set type name ++ constantMark.dropLast := occurs.subset (by decide)
  rcases List.mem_append.1 quote with mem | mem
  · exact quote_notMem_declaration noQuote.1 noQuote.2 mem
  · revert mem
    decide

/-- Without a constant a field is as it was. -/
theorem encodeField_declaration (sound : SoundField type name none) :
    encodeField (declaration set type name) = .ok (declaration set type name) := by
  have clean := sound.declaration set
  simp only [Option.isSome_none, Bool.false_eq_true, if_false, List.append_nil] at clean
  have uncut : cutAt? " = ".toList (declaration set type name) = none := cutAt?_eq_none_iff.2 clean
  simp only [encodeField, uncut]
  split <;> rfl

theorem decodeField_declaration (noQuote : '"' ∉ type ∧ '"' ∉ name) :
    decodeField (declaration set type name) = .ok (declaration set type name) := by
  have uncut : cutAt? constantMark (declaration set type name) = none :=
    cutAt?_eq_none_iff.2 fun occurs => quote_notMem_declaration noQuote.1 noQuote.2 (occurs.subset (by decide))
  simp only [decodeField, uncut]
  split <;> rfl

end Legacy

end ApiSurface
