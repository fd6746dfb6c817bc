import ApiSurface.Proofs.Legacy.CharacterCode

/-!
Lines with types in them. A line of a field, a method or a constructor is cut where its types begin and end; what
stands between and behind them is any text, with any number of spaces. Main statements: changing the types of a line
changes nothing else on it (`TypedLine.changeTypes_text`), so that types become descriptors where they stand, and the
line is read back from them (`TypedLine.encode_decode`).
-/

namespace ApiSurface

open ApiSurface.Text ApiSurface.Line

namespace Legacy

/-! ### In front of the types -/

/-- What the line of a member begins with: its tag and keywords, with spaces behind each. -/
inductive IsLead (kind : MemberKind) : List Char → Prop
  | tag : IsLead kind (kind.tag.toList ++ [' '])
  | space {lead} (before : IsLead kind lead) : IsLead kind (lead ++ [' '])
  | keyword {lead m word} (before : IsLead kind lead) (written : Modifier.keyword? m = some word) :
    IsLead kind (lead ++ word.toList ++ [' '])

/-- A list of type parameters, which is one token. -/
structure IsParameters (t : List Char) : Prop where
  lists : listsParameters t = true
  clear : Clear legacyBrackets [' '] t

/-- A name that is part of a token and has no arguments. -/
structure IsName (name : List Char) : Prop where
  noCall : '(' ∉ name
  clear : Clear legacyBrackets [' '] name

/-- Some spaces, at least one. -/
def IsGap (gap : List Char) : Prop := ∃ n, gap = List.replicate (n + 1) ' '

/-- What stands in front of the first type of a line: its lead, and type parameters if the member has any. -/
inductive IsFront (kind : MemberKind) : List Char → Prop
  | lead {lead} (starts : IsLead kind lead) : IsFront kind lead
  | parameters {lead t gap} (starts : IsLead kind lead) (lists : IsParameters t) (spaces : IsGap gap) :
    IsFront kind (lead ++ t ++ gap)

/-- What may follow a token: nothing, or a space and whatever can be cut into tokens. -/
structure IsBehind (rest : List Char) : Prop where
  starts : AtSpace rest
  cut : ∃ tokens, cutTokens rest = .ok tokens

/-! ### Types -/

/-- A type as it is written in source: no part of it is a token or an argument of its own, and it begins neither like
a descriptor nor like a list of type parameters. -/
structure IsSourceType (t : List Char) : Prop where
  filled : t ≠ []
  starts : ∀ c ∈ t.head?, c ≠ '[' ∧ c ≠ '<'
  trimmed : Trimmed t
  clear : Clear legacyBrackets [' ', ','] t

/-- A type in either spelling, as far as the tokens of a line tell. -/
structure IsTypeWord (t : List Char) : Prop where
  filled : t ≠ []
  trimmed : Trimmed t
  clear : Clear legacyBrackets [' ', ','] t
  noList : listsParameters t = false

theorem IsTypeWord.item {t : List Char} (h : IsTypeWord t) : IsItem legacyBrackets t :=
  ⟨h.filled, h.trimmed, h.clear.of_subset (by decide)⟩

theorem IsSourceType.token {t : List Char} (h : IsSourceType t) : IsTypeWord t := by
  refine ⟨h.filled, h.trimmed, h.clear, ?_⟩
  obtain ⟨c, more, rfl⟩ := List.exists_cons_of_ne_nil h.filled
  have other := (h.starts c rfl).2
  simp [listsParameters, List.isPrefixOf, Ne.symm other]

/-- Every type is written as a type of source; so is one of a variable number of arguments. -/
theorem isSourceType_render {t : JavaType} (h : t.Legal) (dots : Bool) :
    IsSourceType (t.render ++ if dots then ['.', '.', '.'] else []) := by
  have some := render_ne_nil h
  have clear : Clear legacyBrackets [' ', ','] t.render := h.renders.clearIn _ legacyBrackets_subset (by decide)
  refine ⟨by simp [some], fun c mem => ?_, ⟨fun c mem => ?_, fun c mem => ?_⟩, clear.append (by cases dots <;> rfl)⟩
  · rw [List.head?_append_of_ne_nil _ some] at mem
    have marks := (notMem_of_isNamePart (h.starts c mem)).1
    exact ⟨fun same => marks (by simp [same, Text.marks]), fun same => marks (by simp [same, Text.marks])⟩
  · rw [List.head?_append_of_ne_nil _ some] at mem
    exact h.renders.trimmed.1 c mem
  · cases dots with
    | false =>
      rw [if_neg Bool.false_ne_true, List.append_nil] at mem
      exact h.renders.trimmed.2 c mem
    | true =>
      obtain rfl : '.' = c := by simpa using mem
      decide

/-- The literal in progress, if there is one, began with a quote. -/
def InQuotes (n : Nesting) : Prop :=
  ∀ q, n.literal = .inside q ∨ n.literal = .escaped q → q = '"' ∨ q = '\''

theorem InQuotes.step {n m : Nesting} {c : Char} (quotes : InQuotes n) (h : n.step legacyBrackets c = .ok m) :
    InQuotes m := by
  obtain ⟨stack, literal⟩ := n
  intro q inside
  cases literal with
  | escaped p =>
    cases h
    exact quotes q (.inr (by simpa using inside))
  | inside p =>
    have same := quotes p (.inl rfl)
    simp only [Nesting.step] at h
    split_ifs at h <;> cases h <;> simp_all
  | outside =>
    simp only [Nesting.step] at h
    split_ifs at h with opening
    · cases h
      simp only [LiteralState.inside.injEq, reduceCtorEq, or_false] at inside
      exact inside ▸ opening
    · cases h
      simp at inside
    · cases stack with
      | nil => cases h
      | cons b stack =>
        simp only at h
        split_ifs at h
        cases h
        simp at inside
    · cases h
      simp at inside

theorem InQuotes.through {n m : Nesting} {stops cs : List Char} (quotes : InQuotes n)
    (h : n.through legacyBrackets stops cs = some m) : InQuotes m := by
  induction cs generalizing n with
  | nil =>
    cases h
    exact quotes
  | cons c cs ih =>
    obtain ⟨-, next, stepped, later⟩ := Nesting.through_cons_eq_some_iff.1 h
    exact ih (quotes.step stepped) later

/-- Square brackets do not count on old lines: none leads to the top but from the top. -/
theorem eq_top_of_square {n : Nesting} (quotes : InQuotes n) {c : Char} (square : c = '[' ∨ c = ']')
    (h : n.step legacyBrackets c = .ok .top) : n = .top := by
  obtain ⟨stack, literal⟩ := n
  cases literal with
  | escaped q => simp [Nesting.step, Nesting.top] at h
  | inside q =>
    have differ : c ≠ q := by
      rcases square with rfl | rfl <;> rcases quotes q (.inl rfl) with rfl | rfl <;> decide
    simp only [Nesting.step, differ, if_false] at h
    split_ifs at h <;> simp [Nesting.top] at h
  | outside =>
    have plain : ¬(c = '"' ∨ c = '\'') ∧ c ∉ legacyBrackets ∧
        ¬(c ∈ [')', ']', '>'] ∧ legacyBrackets.any (closerOf · == c) = true) := by
      rcases square with rfl | rfl <;> decide
    simp only [Nesting.step, plain.1, plain.2.1, plain.2.2, if_false] at h
    exact Except.ok.inj h

theorem eq_top_of_squares {n : Nesting} {squares stops : List Char} (quotes : InQuotes n)
    (only : ∀ c ∈ squares, c = '[' ∨ c = ']') (h : n.through legacyBrackets stops squares = some .top) :
    n = .top := by
  induction squares generalizing n with
  | nil => simpa [Nesting.through] using h
  | cons c squares ih =>
    obtain ⟨-, next, stepped, later⟩ := Nesting.through_cons_eq_some_iff.1 h
    obtain rfl := ih (quotes.step stepped) (fun d mem => only d (by simp [mem])) later
    exact eq_top_of_square quotes (only c (by simp)) stepped

/-- What stands in front of dimensions is as clear as the whole. -/
theorem clear_of_dimensions {element stops : List Char} {n : Nat}
    (h : Clear legacyBrackets stops (element ++ (List.replicate n ['[', ']']).flatten)) :
    Clear legacyBrackets stops element := by
  obtain ⟨k, front, back⟩ := Nesting.exists_of_through_append h
  have start : InQuotes .top := by simp [InQuotes, Nesting.top]
  have squares : ∀ c ∈ (List.replicate n ['[', ']']).flatten, c = '[' ∨ c = ']' := by
    intro c mem
    obtain ⟨pair, inList, inPair⟩ := List.mem_flatten.1 mem
    rw [(List.mem_replicate.1 inList).2] at inPair
    simpa using inPair
  have same : k = .top := eq_top_of_squares (start.through front) squares back
  rwa [same] at front

/-- The end of a descriptor is a letter or a semicolon. -/
theorem getLast?_elementToDescriptor (element : List Char) :
    ∀ c ∈ (elementToDescriptor element).getLast?, isBlank c = false := by
  rcases exists_elementToDescriptor element with ⟨p, letter, -⟩ | name
  · rw [letter]
    cases p <;> decide
  · have semicolon : isBlank ';' = false := by decide
    rw [name, List.getLast?_concat]
    simpa using semicolon

theorem clear_elementToDescriptor {element : List Char} (h : Clear legacyBrackets [' ', ','] element) :
    Clear legacyBrackets [' ', ','] (elementToDescriptor element) := by
  rcases exists_elementToDescriptor element with ⟨p, letter, -⟩ | name
  · rw [letter]
    cases p <;> rfl
  · have lead : Clear legacyBrackets [' ', ','] ['L'] := rfl
    have tail : Clear legacyBrackets [' ', ','] [';'] := rfl
    rw [name]
    exact (lead.append h).append tail

/-- The descriptor of a type is a token as well. -/
theorem IsTypeWord.descriptor {t : List Char} (h : IsTypeWord t) : IsTypeWord (arrayToDescriptor t) := by
  rcases arrayToDescriptor_cases t with same | ⟨element, n, filled, whole, shape⟩
  · rwa [same]
  · obtain ⟨m, rfl⟩ := Nat.exists_eq_succ_of_ne_zero filled
    have inner : Clear legacyBrackets [' ', ','] element := clear_of_dimensions (whole ▸ h.clear)
    have brackets : Clear legacyBrackets [' ', ','] (List.replicate (m + 1) '[') := by
      refine clear_of_still fun c mem => ?_
      rw [(List.mem_replicate.1 mem).2]
      decide
    have first : isBlank '[' = false := by decide
    obtain ⟨c, more, some, -⟩ := head_elementToDescriptor element
    rw [shape]
    refine ⟨by simp, ⟨?_, fun d mem => getLast?_elementToDescriptor element d ?_⟩,
      brackets.append (clear_elementToDescriptor inner), ?_⟩
    · simpa [List.replicate_succ] using first
    · rw [List.getLast?_append, some] at mem
      rw [some]
      simpa using mem
    · simp [listsParameters, List.replicate_succ, List.isPrefixOf]

/-! ### Tokens -/

/-- The place of the first type among the tokens that are not empty. -/
def typePlace (tokens : List (List Char)) : Nat :=
  let first := placeAfterModifiers (filled tokens)
  if ((filled tokens)[first]?).any listsParameters then first + 1 else first

/-- A front as tokens: they stand in front of those of the types, and the types are found behind them. -/
structure FrontTokens (kind : MemberKind) (front : List Char) (tokens : List (List Char)) : Prop where
  joins : ∀ t more, front ++ t ++ spaced more = joinSpaced (tokens ++ t :: more)
  clear : ∀ u ∈ tokens, Clear legacyBrackets [' '] u
  noCall : ∀ u ∈ tokens, '(' ∉ u
  place : ∀ t more, t ≠ [] → NotKeyword t → listsParameters t = false →
    typePlace (tokens ++ t :: more) = (filled tokens).length
  kind : ∀ more, MemberKind.ofTag? (String.ofList (firstWord (front ++ more))) = some kind

/-- A lead is the tag and words behind it, each of them empty or a keyword. -/
theorem IsLead.exists_words {kind : MemberKind} {lead : List Char} (h : IsLead kind lead) :
    ∃ words, (∀ more, lead ++ more = kind.tag.toList ++ spaced (words ++ [more])) ∧
      ∀ w ∈ words, w = [] ∨ ((Modifier.ofKeyword? (String.ofList w)).isSome ∧ Clear legacyBrackets [' '] w) := by
  induction h with
  | tag => exact ⟨[], fun more => by simp, by simp⟩
  | space before ih =>
    obtain ⟨words, joins, each⟩ := ih
    refine ⟨words ++ [[]], fun more => ?_, fun w mem => ?_⟩
    · simp [joins]
    · rcases List.mem_append.1 mem with mem | mem
      · exact each w mem
      · exact .inl (by simpa using mem)
  | @keyword lead m word before written ih =>
    obtain ⟨words, joins, each⟩ := ih
    refine ⟨words ++ [word.toList], fun more => ?_, fun w mem => ?_⟩
    · simp [joins]
    · rcases List.mem_append.1 mem with mem | mem
      · exact each w mem
      · have clear : Clear legacyBrackets [' '] word.toList := by
          cases m <;> simp only [Modifier.keyword?, Option.some.injEq, reduceCtorEq] at written <;>
            subst written <;> exact clear_of_plain legacyBrackets_subset (by decide)
        obtain rfl := List.mem_singleton.1 mem
        exact .inr ⟨by rw [String.ofList_toList, Modifier.ofKeyword?_keyword? written]; rfl, clear⟩

variable {kind : MemberKind} {words more : List (List Char)} {t : List Char}

theorem filled_replicate (n : Nat) : filled (List.replicate n []) = [] := by
  simp [filled]

/-- The tag and keywords are passed on the way to what is behind them. -/
theorem placeAfterModifiers_words (tag : List Char)
    (each : ∀ w ∈ words, w = [] ∨ ((Modifier.ofKeyword? (String.ofList w)).isSome ∧ Clear legacyBrackets [' '] w))
    (word : NotKeyword t) :
    placeAfterModifiers (tag :: (filled words ++ t :: more)) = (filled words).length + 1 := by
  have keywords : ∀ w ∈ filled words, (Modifier.ofKeyword? (String.ofList w)).isSome := by
    intro w mem
    obtain ⟨inWords, some⟩ := List.mem_filter.1 mem
    rcases each w inWords with rfl | keyword
    · cases some
    · exact keyword.1
  have other : Modifier.ofKeyword? (String.ofList t) = none := word
  simp [placeAfterModifiers, List.takeWhile_append_of_pos keywords, other, Nat.add_comm]

/-- Neither the tag nor a keyword has arguments. -/
theorem noCall_of_words
    (each : ∀ w ∈ words, w = [] ∨ ((Modifier.ofKeyword? (String.ofList w)).isSome ∧ Clear legacyBrackets [' '] w)) :
    ∀ w ∈ kind.tag.toList :: words, '(' ∉ w := by
  refine List.forall_mem_cons.2 ⟨by cases kind <;> decide, fun w mem opens => ?_⟩
  rcases each w mem with rfl | ⟨keyword, -⟩
  · cases opens
  · have none : Modifier.ofKeyword? (String.ofList w) = none := notKeyword_of_mem opens (by decide)
    rw [none] at keyword
    cases keyword

theorem tag_ne_nil (kind : MemberKind) : kind.tag.toList ≠ [] := by cases kind <;> decide

theorem ofTag?_tag_spaced (kind : MemberKind) (t : List Char) (more : List (List Char)) :
    MemberKind.ofTag? (String.ofList (firstWord (kind.tag.toList ++ spaced (t :: more)))) = some kind := by
  rw [spaced_cons, firstWord_append (by cases kind <;> decide), String.ofList_toList, MemberKind.ofTag?_tag]

/-- A lead is made of tokens. -/
theorem IsLead.exists_tokens {front : List Char} (h : IsLead kind front) : ∃ tokens, FrontTokens kind front tokens := by
  have tag : Clear legacyBrackets [' '] kind.tag.toList := (isOldToken_tag kind).clear
  obtain ⟨words, joins, each⟩ := h.exists_words
  refine ⟨kind.tag.toList :: words,
    ⟨fun t more => ?_, ?_, noCall_of_words each, fun t more some word noList => ?_, fun more => ?_⟩⟩
  · rw [List.append_assoc, joins, List.cons_append, joinSpaced, join_eq_append_flatMap]
    simp [spaced]
  · simp only [List.mem_cons, forall_eq_or_imp]
    refine ⟨tag, fun w mem => ?_⟩
    rcases each w mem with rfl | keyword
    · exact clear_nil
    · exact keyword.2
  · have tokens : filled (kind.tag.toList :: words ++ t :: more) =
        kind.tag.toList :: (filled words ++ t :: filled more) := by
      rw [List.cons_append, filled_cons_of_ne (tag_ne_nil kind), filled_append, filled_cons_of_ne some]
    have place : placeAfterModifiers (kind.tag.toList :: (filled words ++ t :: filled more)) = (filled words).length + 1 :=
      placeAfterModifiers_words kind.tag.toList each word
    simp only [typePlace, tokens, place, filled_cons_of_ne (tag_ne_nil kind)]
    simp [noList]
  · rw [joins]
    cases words with
    | nil => exact ofTag?_tag_spaced kind more []
    | cons w words => exact ofTag?_tag_spaced kind w (words ++ [more])

theorem spaced_replicate (n : Nat) (t : List Char) (more : List (List Char)) :
    spaced (List.replicate n [] ++ t :: more) = List.replicate (n + 1) ' ' ++ (t ++ spaced more) := by
  induction n with
  | zero => simp
  | succ n ih =>
    rw [List.replicate_succ, List.cons_append, spaced_cons, ih, List.replicate_succ (n := n + 1)]
    simp

theorem IsParameters.opens (h : IsParameters t) : '<' ∈ t := by
  have lists := h.lists
  cases t with
  | nil => simp [listsParameters, List.isPrefixOf] at lists
  | cons c t =>
    simp only [listsParameters, List.isPrefixOf, Bool.and_eq_true, beq_iff_eq] at lists
    exact lists.1.1 ▸ List.mem_cons_self

theorem IsParameters.noCall (h : IsParameters t) : '(' ∉ t := by
  have lists := h.lists
  simp only [listsParameters, Bool.and_eq_true, Bool.not_eq_true', List.contains_eq_mem, decide_eq_false_iff_not] at lists
  exact lists.2

/-- Type parameters behind a lead are one more token, and the place of the types is behind it. -/
theorem IsLead.exists_tokens_parameters {lead parameters gap : List Char} (h : IsLead kind lead)
    (lists : IsParameters parameters) (spaces : IsGap gap) :
    ∃ tokens, FrontTokens kind (lead ++ parameters ++ gap) tokens := by
  have tag : Clear legacyBrackets [' '] kind.tag.toList := (isOldToken_tag kind).clear
  obtain ⟨words, joins, each⟩ := h.exists_words
  obtain ⟨n, rfl⟩ := spaces
  have word : NotKeyword parameters := notKeyword_of_mem lists.opens (by decide)
  have some : parameters ≠ [] := List.ne_nil_of_mem lists.opens
  refine ⟨kind.tag.toList :: (words ++ parameters :: List.replicate n []),
    ⟨fun t more => ?_, ?_, ?_, fun t more filled' word' noList => ?_, fun more => ?_⟩⟩
  · have whole := joins (parameters ++ (List.replicate (n + 1) ' ' ++ (t ++ spaced more)))
    rw [← spaced_replicate] at whole
    rw [joinSpaced, List.cons_append, join_eq_append_flatMap]
    simp only [List.append_assoc] at whole ⊢
    rw [← spaced_replicate, whole]
    simp [spaced]
  · simp only [List.mem_cons, List.mem_append, List.mem_replicate]
    rintro u (rfl | mem | rfl | ⟨-, rfl⟩)
    · exact tag
    · rcases each u mem with rfl | keyword
      · exact clear_nil
      · exact keyword.2
    · exact lists.clear
    · exact clear_nil
  · have free : ∀ w ∈ kind.tag.toList :: words, '(' ∉ w := noCall_of_words each
    simp only [List.mem_cons, List.mem_append, List.mem_replicate]
    rintro u (rfl | mem | rfl | ⟨-, rfl⟩)
    · exact free _ (by simp)
    · exact free u (by simp [mem])
    · exact lists.noCall
    · simp
  · have tokens : filled (kind.tag.toList :: (words ++ parameters :: List.replicate n []) ++ t :: more) =
        kind.tag.toList :: (filled words ++ parameters :: t :: filled more) := by
      rw [List.cons_append, filled_cons_of_ne (tag_ne_nil kind), List.append_assoc, filled_append,
        List.cons_append, filled_cons_of_ne some, filled_append, filled_replicate, filled_cons_of_ne filled',
        List.nil_append]
    have front : filled (kind.tag.toList :: (words ++ parameters :: List.replicate n [])) =
        kind.tag.toList :: (filled words ++ [parameters]) := by
      rw [filled_cons_of_ne (tag_ne_nil kind), filled_append, filled_cons_of_ne some, filled_replicate]
    have place : placeAfterModifiers (kind.tag.toList :: (filled words ++ parameters :: t :: filled more)) =
        (filled words).length + 1 := placeAfterModifiers_words kind.tag.toList each word
    simp only [typePlace, tokens, place, front]
    simp [lists.lists]
  · rw [List.append_assoc, List.append_assoc, joins]
    cases words with
    | nil => exact ofTag?_tag_spaced kind _ []
    | cons w words => exact ofTag?_tag_spaced kind w _

/-- A front is made of tokens. -/
theorem IsFront.exists_tokens {front : List Char} (h : IsFront kind front) : ∃ tokens, FrontTokens kind front tokens := by
  cases h with
  | lead starts => exact starts.exists_tokens
  | parameters starts lists spaces => exact starts.exists_tokens_parameters lists spaces

/-- What is behind a token is nothing, or further tokens with spaces in front. -/
theorem IsBehind.exists_tokens {rest : List Char} (h : IsBehind rest) :
    ∃ more, rest = spaced more ∧ ∀ u ∈ more, Clear legacyBrackets [' '] u := by
  obtain ⟨tokens, cut⟩ := h.cut
  obtain ⟨filled, rfl, each⟩ := cutTokens_eq_ok_iff.1 cut
  cases tokens with
  | nil => exact absurd rfl filled
  | cons t more =>
    have starts := h.starts
    have clear := each t (by simp)
    rw [join_eq_append_flatMap] at starts ⊢
    cases t with
    | nil => exact ⟨more, rfl, fun u mem => each u (by simp [mem])⟩
    | cons c t => exact absurd (starts c rfl) fun same => clear.head_notMem (by simp [same])

namespace FrontTokens

variable {start : List Char} {tokens : List (List Char)}

/-- A line with this front is cut into its tokens, the next one and those behind it. -/
theorem cut (front : FrontTokens kind start tokens) (token : Clear legacyBrackets [' '] t)
    (clear : ∀ u ∈ more, Clear legacyBrackets [' '] u) :
    cutTokens (start ++ t ++ spaced more) = .ok (tokens ++ t :: more) := by
  rw [front.joins]
  refine cutTokens_join (by simp) fun u mem => ?_
  simp only [List.mem_append, List.mem_cons] at mem
  rcases mem with mem | rfl | mem
  · exact front.clear u mem
  · exact token
  · exact clear u mem

/-- The tag of a line with this front. -/
theorem tagged (front : FrontTokens kind start tokens) (t rest : List Char) :
    MemberKind.ofTag? (String.ofList (firstWord (start ++ t ++ rest))) = some kind := by
  rw [List.append_assoc]
  exact front.kind (t ++ rest)

end FrontTokens

/-- What is changed on a line, once it is cut into tokens. -/
theorem changeTypes_eq {change : List Char → List Char} {line : List Char} {tokens : List (List Char)}
    (tagged : MemberKind.ofTag? (String.ofList (firstWord line)) = some kind)
    (typed : kind = .field ∨ kind = .method ∨ kind = .constructor) (cut : cutTokens line = .ok tokens) :
    changeTypes change line =
      (match kind with
      | .field => changeToken (fun t => .ok (change t)) (typePlace tokens) tokens
      | .method => changeToken (changeArguments line change) (typePlace tokens + 1) tokens >>=
          changeToken (fun t => .ok (change t)) (typePlace tokens)
      | _ => changeToken (changeArguments line change) (typePlace tokens) tokens).map joinSpaced := by
  unfold changeTypes
  rw [tagged]
  rcases typed with rfl | rfl | rfl <;> simp only [cut, ok_bind, typePlace]
  · generalize changeToken _ _ tokens = changed
    cases changed <;> rfl
  · generalize changeToken _ _ tokens = changed
    cases changed with
    | error fault => rfl
    | ok others =>
      simp only [ok_bind]
      generalize changeToken _ _ others = changed
      cases changed <;> rfl
  · generalize changeToken _ _ tokens = changed
    cases changed <;> rfl

/-! ### Lines -/

/-- The line of a field, a method or a constructor, cut where its types begin and end. Behind the type of a field
there is its name; the name of a method stands between its types. -/
inductive TypedLine where
  | field (front type rest : List Char)
  | method (front type gap name : List Char) (arguments : List (List Char)) (rest : List Char)
  | constructor (front name : List Char) (arguments : List (List Char)) (rest : List Char)

namespace TypedLine

/-- The line. -/
def text : TypedLine → List Char
  | .field front type rest => front ++ type ++ rest
  | .method front type gap name arguments rest =>
    front ++ type ++ gap ++ callToken name (join [','] arguments) ++ rest
  | .constructor front name arguments rest => front ++ callToken name (join [','] arguments) ++ rest

/-- The line with its types changed, and nothing else. -/
def map (change : List Char → List Char) : TypedLine → TypedLine
  | .field front type rest => .field front (change type) rest
  | .method front type gap name arguments rest => .method front (change type) gap name (arguments.map change) rest
  | .constructor front name arguments rest => .constructor front name (arguments.map change) rest

/-- Whether this is a line in which each type, as far as the tokens tell, is a type. A type that is a token of its own
is no keyword. -/
def IsLine (IsType : List Char → Prop) : TypedLine → Prop
  | .field front type rest => IsFront .field front ∧ (IsType type ∧ NotKeyword type) ∧ IsBehind rest
  | .method front type gap name arguments rest =>
    IsFront .method front ∧ (IsType type ∧ NotKeyword type) ∧ IsGap gap ∧ IsName name ∧ (∀ u ∈ arguments, IsType u) ∧
      IsBehind rest
  | .constructor front name arguments rest =>
    IsFront .constructor front ∧ IsName name ∧ (∀ u ∈ arguments, IsType u) ∧ IsBehind rest

/-- Changes that keep types keep lines. -/
theorem IsLine.map {P Q : List Char → Prop} {l : TypedLine} (h : l.IsLine P) {change : List Char → List Char}
    (keeps : ∀ t, P t → Q (change t)) (words : ∀ t, NotKeyword t → NotKeyword (change t)) :
    (l.map change).IsLine Q := by
  cases l with
  | field front type rest =>
    obtain ⟨starts, ⟨type', word⟩, ends⟩ := h
    exact ⟨starts, ⟨keeps _ type', words _ word⟩, ends⟩
  | method front type gap name arguments rest =>
    obtain ⟨starts, ⟨type', word⟩, spaces, named, each, ends⟩ := h
    exact ⟨starts, ⟨keeps _ type', words _ word⟩, spaces, named, by simpa using fun u mem => keeps u (each u mem), ends⟩
  | constructor front name arguments rest =>
    obtain ⟨starts, named, each, ends⟩ := h
    exact ⟨starts, named, by simpa using fun u mem => keeps u (each u mem), ends⟩

/-- A change that is undone on each type is undone on the line. -/
theorem map_map_of_undone {P : List Char → Prop} {l : TypedLine} (h : l.IsLine P) {change back : List Char → List Char}
    (undone : ∀ t, P t → back (change t) = t) : (l.map change).map back = l := by
  have list {us : List (List Char)} (each : ∀ u ∈ us, P u) : (us.map change).map back = us := by
    rw [List.map_map]
    exact (List.map_congr_left fun u mem => undone u (each u mem)).trans (List.map_id us)
  cases l with
  | field front type rest => simp only [TypedLine.map, undone _ h.2.1.1]
  | method front type gap name arguments rest => simp only [TypedLine.map, undone _ h.2.1.1, list h.2.2.2.2.1]
  | constructor front name arguments rest => simp only [TypedLine.map, list h.2.2.1]

/-- A call whose arguments are types is a token. -/
theorem clear_call {name : List Char} {us : List (List Char)} (named : IsName name) (each : ∀ u ∈ us, IsTypeWord u) :
    Clear legacyBrackets [' '] (callToken name (join [','] us)) := by
  have given : Clear legacyBrackets [' '] (join [','] us) :=
    clear_join legacyBrackets_subset (by decide) (by decide) fun u mem => (each u mem).clear.of_subset (by decide)
  have whole := named.clear.append (given.bracketed legacyBrackets_subset (by decide : '(' ∈ legacyBrackets) (by decide))
  simpa [callToken, closerOf] using whole

variable {change : List Char → List Char}

theorem changeTypes_text_field {start type rest : List Char} (h : (field start type rest).IsLine IsTypeWord) :
    changeTypes change (field start type rest).text = .ok ((field start type rest).map change).text := by
  obtain ⟨starts, ⟨typed, word⟩, ends⟩ := h
  obtain ⟨tokens, front⟩ := starts.exists_tokens
  obtain ⟨more, rfl, clear⟩ := ends.exists_tokens
  have cut := front.cut (typed.clear.of_subset (by decide)) clear
  have place := front.place type more typed.filled word typed.noList
  have changed := changeToken_behind (fun t => .ok (change t)) tokens typed.filled more
  rw [text, changeTypes_eq (front.tagged type _) (.inl rfl) cut]
  simp only [place, changed, map_ok, ← front.joins, TypedLine.map, text]

theorem changeTypes_text_method {start type gap name rest : List Char} {arguments : List (List Char)}
    (h : (method start type gap name arguments rest).IsLine IsTypeWord) :
    changeTypes change (method start type gap name arguments rest).text =
      .ok ((method start type gap name arguments rest).map change).text := by
  obtain ⟨starts, ⟨typed, word⟩, ⟨n, rfl⟩, named, each, ends⟩ := h
  obtain ⟨tokens, front⟩ := starts.exists_tokens
  obtain ⟨more, rfl, clear⟩ := ends.exists_tokens
  -- spaces between the type and the name are empty tokens
  let behind (us : List (List Char)) : List (List Char) :=
    List.replicate n [] ++ callToken name (join [','] us) :: more
  have whole (t : List Char) (us : List (List Char)) :
      start ++ t ++ List.replicate (n + 1) ' ' ++ callToken name (join [','] us) ++ spaced more =
        start ++ t ++ spaced (behind us) := by
    simp only [behind, spaced_replicate, List.append_assoc]
  have cut : cutTokens (start ++ type ++ spaced (behind arguments)) = .ok (tokens ++ type :: behind arguments) := by
    refine front.cut (typed.clear.of_subset (by decide)) fun u mem => ?_
    simp only [behind, List.mem_append, List.mem_cons, List.mem_replicate] at mem
    rcases mem with ⟨-, rfl⟩ | rfl | mem
    · exact clear_nil
    · exact clear_call named each
    · exact clear u mem
  have place (others : List (List Char)) := front.place type others typed.filled word typed.noList
  have passed : (filled (tokens ++ type :: List.replicate n [])).length = (filled tokens).length + 1 := by
    rw [filled_append, filled_cons_of_ne typed.filled, filled_replicate]
    simp
  have second (line : List Char) : changeToken (changeArguments line change) ((filled tokens).length + 1)
      (tokens ++ type :: behind arguments) = .ok (tokens ++ type :: behind (arguments.map change)) := by
    have changed := changeToken_behind (changeArguments line change) (tokens ++ type :: List.replicate n [])
      (callToken_ne_nil name (join [','] arguments)) more
    simpa only [passed, List.append_assoc, List.cons_append,
      changeArguments_callToken named.noCall fun u mem => (each u mem).item, map_ok] using changed
  have first := changeToken_behind (fun t => .ok (change t)) tokens typed.filled (behind (arguments.map change))
  rw [text, TypedLine.map, text, whole, whole, changeTypes_eq (front.tagged type _) (.inr (.inl rfl)) cut]
  simp only [place, second, ok_bind, first, map_ok, front.joins]

theorem changeTypes_text_constructor {start name rest : List Char} {arguments : List (List Char)}
    (h : (constructor start name arguments rest).IsLine IsTypeWord) :
    changeTypes change (constructor start name arguments rest).text =
      .ok ((constructor start name arguments rest).map change).text := by
  obtain ⟨starts, named, each, ends⟩ := h
  obtain ⟨tokens, front⟩ := starts.exists_tokens
  obtain ⟨more, rfl, clear⟩ := ends.exists_tokens
  have some := callToken_ne_nil name (join [','] arguments)
  have word : NotKeyword (callToken name (join [','] arguments)) := notKeyword_of_mem (mem_callToken _ _) (by decide)
  have cut := front.cut (clear_call named each) clear
  have place := front.place (callToken name (join [','] arguments)) more some word (listsParameters_callToken _ _)
  have changed (line : List Char) := changeToken_behind (changeArguments line change) tokens some more
  simp only [changeArguments_callToken named.noCall fun u mem => (each u mem).item, map_ok] at changed
  rw [text, changeTypes_eq (front.tagged _ _) (.inr (.inr rfl)) cut]
  simp only [place, changed, map_ok, ← front.joins, TypedLine.map, text]

/-- **Only the types change.** Changing the types of a line changes nothing else on it. -/
theorem changeTypes_text {l : TypedLine} (h : l.IsLine IsTypeWord) :
    changeTypes change l.text = .ok (l.map change).text := by
  cases l with
  | field start type rest => exact changeTypes_text_field h
  | method start type gap name arguments rest => exact changeTypes_text_method h
  | constructor start name arguments rest => exact changeTypes_text_constructor h

theorem IsLine.typeWords {l : TypedLine} (h : l.IsLine IsSourceType) : l.IsLine IsTypeWord := by
  have same : l.map id = l := by cases l <;> simp [TypedLine.map]
  have mapped : (l.map id).IsLine IsTypeWord := h.map (fun t type => type.token) fun _ word => word
  rwa [same] at mapped

/-- **Types become descriptors and nothing else changes.** On a line whose types are types of source, of any dimension,
exactly these are written as descriptors, where they stand; and the line is read back. -/
theorem encode_decode (className : String) {l : TypedLine} (h : l.IsLine IsSourceType) :
    LegacyRule.vmArrays.encode className l.text = .ok (l.map arrayToDescriptor).text ∧
      LegacyRule.vmArrays.decode className (l.map arrayToDescriptor).text = .ok (some l.text) := by
  have descriptors : (l.map arrayToDescriptor).IsLine IsTypeWord :=
    h.typeWords.map (fun t type => type.descriptor) fun t word => notKeyword_arrayToDescriptor word
  have back : (l.map arrayToDescriptor).map arrayToSource = l := map_map_of_undone h fun t type =>
    arrayToSource_arrayToDescriptor fun c mem => (type.starts c mem).1
  refine ⟨changeTypes_text h.typeWords, ?_⟩
  simp only [LegacyRule.decode, changeTypes_text descriptors, back, map_ok]

/-- A method whose types are of each kind, with a default behind it that looks like them. -/
def crowdedLine : TypedLine :=
  .method "METH public  static <%0 extends java.util.List<? super int[]>> ".toList "int[][]".toList "  ".toList
    "of".toList ["java.util.Map<java.lang.String,int[]>[]".toList, "long".toList, "annotation[]".toList]
    " throws a.B[]  def=\"f(int[]) [I\"".toList

theorem encode_decode_crowdedLine :
    crowdedLine.IsLine IsSourceType ∧
      (crowdedLine.map arrayToDescriptor).text =
        ("METH public  static <%0 extends java.util.List<? super int[]>> [[I  " ++
          "of([Ljava.util.Map<java.lang.String,int[]>;,long,[Lannotation;) throws a.B[]  def=\"f(int[]) [I\"").toList ∧
      LegacyRule.vmArrays.encode "a.C" crowdedLine.text = .ok (crowdedLine.map arrayToDescriptor).text ∧
      LegacyRule.vmArrays.decode "a.C" (crowdedLine.map arrayToDescriptor).text = .ok (some crowdedLine.text) := by
  have lead : IsLead .method "METH public  static ".toList :=
    .keyword (m := .static) (.space (.keyword (m := .public) .tag rfl)) rfl
  have front : IsFront .method "METH public  static <%0 extends java.util.List<? super int[]>> ".toList :=
    .parameters (t := "<%0 extends java.util.List<? super int[]>>".toList) lead ⟨rfl, rfl⟩ ⟨0, rfl⟩
  have source : ∀ t ∈ ["int[][]", "java.util.Map<java.lang.String,int[]>[]", "long", "annotation[]"].map String.toList,
      IsSourceType t := by
    simp only [List.map_cons, List.map_nil, List.mem_cons, List.not_mem_nil, or_false, forall_eq_or_imp, forall_eq]
    refine ⟨⟨?_, ?_, ⟨?_, ?_⟩, rfl⟩, ⟨?_, ?_, ⟨?_, ?_⟩, rfl⟩, ⟨?_, ?_, ⟨?_, ?_⟩, rfl⟩, ⟨?_, ?_, ⟨?_, ?_⟩, rfl⟩⟩ <;> decide
  have line : crowdedLine.IsLine IsSourceType := by
    refine ⟨front, ⟨source _ (by simp), rfl⟩, ⟨1, rfl⟩, ⟨by decide, rfl⟩, fun u mem => source u ?_, ⟨?_, ?_⟩⟩
    · exact List.mem_cons_of_mem _ mem
    · exact fun c first => (Option.some.inj first).symm
    · exact ⟨_, rfl⟩
  exact ⟨line, by decide +kernel, (encode_decode "a.C" line).1, (encode_decode "a.C" line).2⟩

/-! ### Names of constructors -/

/-- The kind of a line. -/
def memberKind : TypedLine → MemberKind
  | .field .. => .field
  | .method .. => .method
  | .constructor .. => .constructor

/-- What stands in front of the first type or of the name. -/
def front : TypedLine → List Char
  | .field front .. | .method front .. | .constructor front .. => front

theorem IsLine.front {l : TypedLine} {IsType : List Char → Prop} (h : l.IsLine IsType) :
    IsFront l.memberKind l.front := by
  cases l <;> exact h.1

theorem kind_text {l : TypedLine} (h : IsFront l.memberKind l.front) : LineKind.of l.text = .member l.memberKind := by
  refine LegacyRule.kind_of_ofTag? ?_
  obtain ⟨tokens, starts⟩ := h.exists_tokens
  cases l with
  | field start type rest => simpa [text, memberKind, TypedLine.front] using starts.kind (type ++ rest)
  | method start type gap name arguments rest =>
    simpa [text, memberKind, TypedLine.front] using starts.kind (type ++ (gap ++ (callToken name (join [','] arguments) ++ rest)))
  | constructor start name arguments rest =>
    simpa [text, memberKind, TypedLine.front] using starts.kind (callToken name (join [','] arguments) ++ rest)

/-- The line with its constructor renamed, if it has this name, and with nothing else changed. -/
def rename (old new : List Char) : TypedLine → TypedLine
  | .constructor front name arguments rest => .constructor front (if name = old then new else name) arguments rest
  | .field front type rest => .field front type rest
  | .method front type gap name arguments rest => .method front type gap name arguments rest

theorem isConstructorLine_of_isLead {start : List Char} (h : IsLead .constructor start) (more : List Char) :
    isConstructorLine (start ++ more) = true := by
  suffices "CONS ".toList <+: start from
    List.isPrefixOf_iff_prefix.2 (this.trans (List.prefix_append _ _))
  induction h with
  | tag => exact List.prefix_rfl
  | space _ ih => exact ih.trans (List.prefix_append _ _)
  | keyword _ _ ih => exact (ih.trans (List.prefix_append _ _)).trans (List.prefix_append _ _)

theorem isConstructorLine_of_isFront {start : List Char} (h : IsFront .constructor start) (more : List Char) :
    isConstructorLine (start ++ more) = true := by
  cases h with
  | lead starts => exact isConstructorLine_of_isLead starts more
  | parameters starts _ _ =>
    rw [List.append_assoc, List.append_assoc]
    exact isConstructorLine_of_isLead starts _

/-- **Only the name changes.** Renaming a constructor changes nothing else on its line. -/
theorem renameConstructor_text {l : TypedLine} (h : l.IsLine IsTypeWord) {old : List Char} (free : '(' ∉ old)
    (new : List Char) : renameConstructor old new l.text = .ok (l.rename old new).text := by
  have listed := kind_text h.front
  cases l with
  | field | method =>
    exact LegacyRule.renameConstructor_eq_self (by rw [listed]; simp [memberKind]) old new
  | constructor start name arguments rest =>
    obtain ⟨starts, named, each, ends⟩ := h
    obtain ⟨tokens, front⟩ := starts.exists_tokens
    obtain ⟨more, rfl, clear⟩ := ends.exists_tokens
    have some := callToken_ne_nil name (join [','] arguments)
    have cut := front.cut (clear_call named each) clear
    have free' : ∀ u ∈ filled tokens, (!u.contains '(') = true := by
      intro u mem
      simpa using front.noCall u (List.mem_filter.1 mem).1
    have tagged : isConstructorLine (start ++ callToken name (join [','] arguments) ++ spaced more) = true := by
      rw [List.append_assoc]
      exact isConstructorLine_of_isFront starts _
    have place : ((filled (tokens ++ callToken name (join [','] arguments) :: more)).takeWhile
        (!·.contains '(')).length = (filled tokens).length := by
      rw [filled_append, filled_cons_of_ne some, List.takeWhile_append_of_pos free']
      simp [mem_callToken]
    have inside : ¬(filled (tokens ++ callToken name (join [','] arguments) :: more)).length ≤
        (filled tokens).length := by
      rw [filled_append, filled_cons_of_ne some]
      simp
    unfold renameConstructor
    simp only [text, tagged, Bool.not_true, Bool.false_eq_true, if_false, cut, ok_bind, place, if_neg inside,
      changeToken_behind _ tokens some more]
    by_cases same : name = old
    · subst same
      simp only [afterLead?_callToken, map_ok, ok_bind, rename, if_true, front.joins]
      simp [callToken]
    · simp only [rename, if_neg same]
      split
      · rename_i rest found
        exact absurd (eq_of_afterLead?_callToken named.noCall free found) same
      · simp only [map_ok, ok_bind, front.joins]
        rfl

end TypedLine

end Legacy

end ApiSurface
