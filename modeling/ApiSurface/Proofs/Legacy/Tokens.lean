import ApiSurface.Proofs.Legacy.Arrays

/-!
Lines of members as tokens. What a rule changes is one token of a line, at a place that the tokens before it
tell, and whatever is behind that token stays. Main statements: types are changed where they stand
(`changeTypes_field`, `changeTypes_method`, `changeTypes_constructor`), a constructor is renamed where it is
called like its class (`renameConstructor_tokenLine`), and a text in which nothing is left open can stand
behind the tokens of any line (`exists_spaced_clear`).
-/

namespace ApiSurface.Legacy

open ApiSurface.Text ApiSurface.Line

/-! ### Lines -/

/-- What the line of a member begins with: its tag and its keywords. -/
def leads (kind : MemberKind) (set : Modifiers) : List (List Char) := kind.tag.toList :: keywordTokens set

/-- The line of a member with these tokens behind its keywords. -/
def tokenLine (kind : MemberKind) (set : Modifiers) (tokens : List (List Char)) : List Char :=
  joinSpaced (leads kind set ++ tokens)

variable {kind : MemberKind} {set : Modifiers} {t : List Char} {tokens more : List (List Char)}

theorem tokenLine_eq (kind : MemberKind) (set : Modifiers) (tokens : List (List Char)) :
    tokenLine kind set tokens = kind.tag.toList ++ spaced (keywordTokens set ++ tokens) :=
  join_eq_append_flatMap ' ' kind.tag.toList (keywordTokens set ++ tokens)

/-- Tokens that look the same on a line. -/
theorem tokenLine_append_congr {others : List (List Char)} (same : spaced more = spaced others) :
    tokenLine kind set (tokens ++ more) = tokenLine kind set (tokens ++ others) := by
  simp only [tokenLine_eq, spaced_append, same]

theorem exists_tokenLine_cons (kind : MemberKind) (set : Modifiers) (t : List Char) (more : List (List Char)) :
    ∃ rest, tokenLine kind set (t :: more) = kind.tag.toList ++ ' ' :: rest := by
  rw [tokenLine_eq]
  cases keywordTokens set <;> exact ⟨_, rfl⟩

theorem kind_tokenLine : LineKind.of (tokenLine kind set (t :: more)) = .member kind := by
  obtain ⟨rest, shape⟩ := exists_tokenLine_cons kind set t more
  rw [shape, kind_tag]

theorem kind_tokenLine_ne {other : MemberKind} (differ : kind ≠ other) :
    LineKind.of (tokenLine kind set (t :: more)) ≠ .member other := by
  rw [kind_tokenLine]
  exact fun same => differ (LineKind.member.inj same)

theorem ofTag?_tokenLine :
    MemberKind.ofTag? (String.ofList (firstWord (tokenLine kind set (t :: more)))) = some kind := by
  obtain ⟨rest, shape⟩ := exists_tokenLine_cons kind set t more
  rw [shape, firstWord_append (by cases kind <;> decide), String.ofList_toList, MemberKind.ofTag?_tag]

/-- A line of tokens stays on one line if each of them does. -/
theorem singleLine_tokenLine : SingleLine (tokenLine kind set tokens) ↔ ∀ u ∈ tokens, SingleLine u := by
  have tag : SingleLine kind.tag.toList := by cases kind <;> decide
  have keywords : SingleLine (spaced (keywordTokens set)) := by
    refine .flatMap fun u mem => ?_
    simp only [keywordTokens, Modifiers.keywords, List.mem_map, List.mem_filterMap] at mem
    obtain ⟨word, ⟨m, -, keyword⟩, rfl⟩ := mem
    cases m <;> simp only [Modifier.keyword?, Option.some.injEq, reduceCtorEq] at keyword <;>
      subst keyword <;> decide
  rw [tokenLine_eq, spaced_append, SingleLine.append_iff, SingleLine.append_iff]
  constructor
  · intro h u mem
    exact h.2.2.subset fun c inside => List.mem_flatMap.2 ⟨u, mem, List.mem_cons_of_mem _ inside⟩
  · intro h
    exact ⟨tag, keywords, .flatMap fun u mem => SingleLine.cons_iff.2 ⟨by decide, h u mem⟩⟩

/-! ### Cutting -/

theorem oldToken_of_mem_leads {u : List Char} (mem : u ∈ leads kind set) : IsOldToken u := by
  rcases List.mem_cons.1 mem with rfl | mem
  · exact isOldToken_tag kind
  · exact (isOldToken_keyword mem).1

theorem noCall_of_mem_leads {u : List Char} (mem : u ∈ leads kind set) : '(' ∉ u := by
  rcases List.mem_cons.1 mem with rfl | mem
  · cases kind <;> decide
  · simp only [keywordTokens, Modifiers.keywords, List.mem_map, List.mem_filterMap] at mem
    obtain ⟨word, ⟨m, -, keyword⟩, rfl⟩ := mem
    cases m <;> simp only [Modifier.keyword?, Option.some.injEq, reduceCtorEq] at keyword <;>
      subst keyword <;> decide

theorem cutTokens_tokenLine (clear : ∀ u ∈ tokens, Clear legacyBrackets [' '] u) :
    cutTokens (tokenLine kind set tokens) = .ok (leads kind set ++ tokens) := by
  refine cutTokens_join (by simp [leads]) fun u mem => ?_
  rcases List.mem_append.1 mem with mem | mem
  · exact (oldToken_of_mem_leads mem).clear
  · exact clear u mem

/-- A text in which nothing is left open can be cut at its spaces, wherever they are. -/
theorem exists_spaced_clear {ts : List (List Char)} (clear : ∀ t ∈ ts, Clear legacyBrackets [] t) :
    ∃ us, spaced us = spaced ts ∧ ∀ u ∈ us, Clear legacyBrackets [' '] u := by
  induction ts with
  | nil => exact ⟨[], rfl, by simp⟩
  | cons t ts ih =>
    obtain ⟨us, same, others⟩ := ih fun u mem => clear u (by simp [mem])
    obtain ⟨pieces, cut⟩ : ∃ pieces, segments legacyBrackets ' ' t = .ok pieces :=
      (clear t (by simp)).exists_segments legacyBrackets_subset (by decide)
    obtain ⟨filled, rfl, each⟩ := segments_eq_ok_iff.1 cut
    have joined : spaced pieces = ' ' :: join [' '] pieces := by
      cases pieces with
      | nil => exact absurd rfl filled
      | cons p ps => rw [join_eq_append_flatMap, spaced_cons, spaced]
    refine ⟨pieces ++ us, ?_, fun u mem => (List.mem_append.1 mem).elim (each u) (others u)⟩
    rw [spaced_append, joined, same]
    rfl

/-! ### Places -/

theorem filled_leads_append (some : t ≠ []) (more : List (List Char)) :
    filled (leads kind set ++ t :: more) = leads kind set ++ t :: filled more := by
  have front : filled (leads kind set) = leads kind set := filled_eq_self fun u mem => oldToken_of_mem_leads mem
  have here : filled (t :: more) = t :: filled more := filled_cons_of_ne some more
  have both : filled (leads kind set ++ t :: more) = filled (leads kind set) ++ filled (t :: more) :=
    List.filter_append _ _
  rw [both, front, here]

/-- The place of the first token behind the keywords, if it is none. -/
theorem placeAfterModifiers_leads (word : NotKeyword t) (more : List (List Char)) :
    placeAfterModifiers (leads kind set ++ t :: more) = (leads kind set).length := by
  have place := placeAfterModifiers_keywords kind.tag.toList set word more
  rw [leads, List.cons_append, place, List.length_cons, Nat.add_comm]

theorem changeToken_empty (change : List Char → Except Malformed (List Char)) (place : Nat) (more : List (List Char)) :
    changeToken change place ([] :: more) = (changeToken change place more).map ([] :: ·) := by
  cases place <;> rfl

/-- The token behind others is changed, wherever there are more spaces than one. -/
theorem changeToken_behind (change : List Char → Except Malformed (List Char)) (front : List (List Char)) (some : t ≠ [])
    (more : List (List Char)) :
    changeToken change (filled front).length (front ++ t :: more) = (change t).map fun u => front ++ u :: more := by
  induction front with
  | nil =>
    rw [filled, List.filter_nil, List.length_nil, List.nil_append, changeToken, if_neg (by simpa using some)]
    rfl
  | cons u front ih =>
    by_cases empty : u = []
    · subst empty
      rw [filled_empty, List.cons_append, changeToken_empty, ih]
      cases change t <;> rfl
    · rw [filled_cons_of_ne empty, List.length_cons, List.cons_append, changeToken, if_neg (by simpa using empty), ih]
      cases change t <;> rfl

/-- The token behind others that are not empty is changed. -/
theorem changeToken_append (change : List Char → Except Malformed (List Char)) {front : List (List Char)}
    (each : ∀ u ∈ front, u ≠ []) (some : t ≠ []) (more : List (List Char)) :
    changeToken change front.length (front ++ t :: more) = (change t).map fun u => front ++ u :: more := by
  have same : filled front = front := List.filter_eq_self.2 fun u mem => by simpa using each u mem
  have changed := changeToken_behind change front some more
  rwa [same] at changed

theorem changeToken_leads (change : List Char → Except Malformed (List Char)) (kind : MemberKind) (set : Modifiers)
    (some : t ≠ []) (more : List (List Char)) :
    changeToken change (leads kind set).length (leads kind set ++ t :: more) =
      (change t).map fun u => leads kind set ++ u :: more :=
  changeToken_append change (fun _ mem => (oldToken_of_mem_leads mem).filled) some more

/-! ### Types -/

/-- The arguments of a call are changed one by one. -/
theorem changeArguments_callToken {name : List Char} {us : List (List Char)} (free : '(' ∉ name)
    (each : ∀ u ∈ us, IsItem legacyBrackets u) (line : List Char) (change : List Char → List Char) :
    changeArguments line change (callToken name (join [','] us)) =
      .ok (callToken name (join [','] (us.map change))) := by
  have cut : cutAt? ['('] (callToken name (join [','] us)) = some (name, join [','] us ++ [')']) := by
    simpa [callToken] using cutAt?_singleton free
  have close : beforeTail? [')'] (join [','] us ++ [')']) = some (join [','] us) := beforeTail?_append _ _
  rw [changeArguments, cut]
  simp only [close, Option.getD_some, items_join each, liftBrackets, map_ok]
  rfl

theorem clear_callToken {name : List Char} {us : List (List Char)} (named : Clear legacyBrackets [' '] name)
    (each : ∀ u ∈ us, IsOldType u) : Clear legacyBrackets [' '] (callToken name (join [','] us)) := by
  have given : Clear legacyBrackets [' '] (join [','] us) :=
    clear_join legacyBrackets_subset (by decide) (by decide) fun u mem => (each u mem).clear.of_subset (by decide)
  have whole := named.append (given.bracketed legacyBrackets_subset (by decide : '(' ∈ legacyBrackets) (by decide))
  simpa [callToken, closerOf] using whole

theorem callToken_ne_nil (name arguments : List Char) : callToken name arguments ≠ [] := by simp [callToken]

theorem mem_callToken (name arguments : List Char) : '(' ∈ callToken name arguments := by simp [callToken]

/-- A call is not taken for a list of type parameters. -/
theorem listsParameters_callToken (name arguments : List Char) :
    listsParameters (callToken name arguments) = false := by
  simp [listsParameters, callToken]

variable {change : List Char → List Char} {name : List Char} {us : List (List Char)}

/-- The tokens of a line are found again. -/
theorem cutTokens_cons (token : Clear legacyBrackets [' '] t) (clear : ∀ u ∈ more, Clear legacyBrackets [' '] u) :
    cutTokens (tokenLine kind set (t :: more)) = .ok (leads kind set ++ t :: more) :=
  cutTokens_tokenLine fun u mem => (List.mem_cons.1 mem).elim (fun same => same ▸ token) (clear u)

theorem changeTypes_field (type : IsOldType t) (word : NotKeyword t)
    (clear : ∀ u ∈ more, Clear legacyBrackets [' '] u) :
    changeTypes change (tokenLine .field set (t :: more)) = .ok (tokenLine .field set (change t :: more)) := by
  have cut : cutTokens (tokenLine .field set (t :: more)) = .ok (leads .field set ++ t :: more) :=
    cutTokens_cons type.oldToken.clear clear
  have changed := changeToken_leads (fun t => .ok (change t)) .field set type.filled more
  unfold changeTypes
  simp only [ofTag?_tokenLine, cut, ok_bind, filled_leads_append type.filled, placeAfterModifiers_leads word]
  simp [type.listsNothing, changed, tokenLine]

theorem changeTypes_method (type : IsOldType t) (word : NotKeyword t) (named : Clear legacyBrackets [' '] name)
    (free : '(' ∉ name) (each : ∀ u ∈ us, IsOldType u) (clear : ∀ u ∈ more, Clear legacyBrackets [' '] u) :
    changeTypes change (tokenLine .method set (t :: callToken name (join [','] us) :: more)) =
      .ok (tokenLine .method set (change t :: callToken name (join [','] (us.map change)) :: more)) := by
  have call := clear_callToken named each
  have cut : cutTokens (tokenLine .method set (t :: callToken name (join [','] us) :: more)) =
      .ok (leads .method set ++ t :: callToken name (join [','] us) :: more) :=
    cutTokens_cons type.oldToken.clear fun u mem => (List.mem_cons.1 mem).elim (fun same => same ▸ call) (clear u)
  have front : ∀ u ∈ leads .method set ++ [t], u ≠ [] := by
    intro u mem
    rcases List.mem_append.1 mem with mem | mem
    · exact (oldToken_of_mem_leads mem).filled
    · rw [List.mem_singleton.1 mem]
      exact type.filled
  -- the call is behind the type, so that its place counts the type as well
  have first (line : List Char) := changeToken_append (changeArguments line change) front
    (callToken_ne_nil name (join [','] us)) more
  simp only [changeArguments_callToken free fun u mem => (each u mem).item, List.length_append,
    List.length_singleton, List.append_assoc, List.singleton_append, map_ok] at first
  have second := changeToken_leads (fun t => .ok (change t)) .method set type.filled
    (callToken name (join [','] (us.map change)) :: more)
  unfold changeTypes
  simp only [ofTag?_tokenLine, cut, ok_bind, filled_leads_append type.filled, placeAfterModifiers_leads word]
  simp [type.listsNothing, first, second, tokenLine]

theorem changeTypes_constructor (named : Clear legacyBrackets [' '] name) (free : '(' ∉ name)
    (each : ∀ u ∈ us, IsOldType u) (clear : ∀ u ∈ more, Clear legacyBrackets [' '] u) :
    changeTypes change (tokenLine .constructor set (callToken name (join [','] us) :: more)) =
      .ok (tokenLine .constructor set (callToken name (join [','] (us.map change)) :: more)) := by
  have cut : cutTokens (tokenLine .constructor set (callToken name (join [','] us) :: more)) =
      .ok (leads .constructor set ++ callToken name (join [','] us) :: more) :=
    cutTokens_cons (clear_callToken named each) clear
  have some := callToken_ne_nil name (join [','] us)
  have word : NotKeyword (callToken name (join [','] us)) := notKeyword_of_mem (mem_callToken _ _) (by decide)
  have changed (line : List Char) := changeToken_leads (changeArguments line change) .constructor set some more
  simp only [changeArguments_callToken free fun u mem => (each u mem).item, map_ok] at changed
  unfold changeTypes
  simp only [ofTag?_tokenLine, cut, ok_bind, filled_leads_append some, placeAfterModifiers_leads word]
  simp [listsParameters_callToken, changed, tokenLine]

/-! ### Names of constructors -/

theorem afterLead?_callToken (name arguments : List Char) :
    afterLead? name (callToken name arguments) = some ('(' :: (arguments ++ [')'])) := by
  simpa [callToken] using afterLead?_append name ('(' :: arguments ++ [')'])

/-- A call has no other name than its own. -/
theorem eq_of_afterLead?_callToken {old arguments rest : List Char} (free : '(' ∉ name) (freeOld : '(' ∉ old)
    (h : afterLead? old (callToken name arguments) = some ('(' :: rest)) : name = old := by
  have ours : cutAt? ['('] (callToken name arguments) = some (name, arguments ++ [')']) := by
    simpa [callToken] using cutAt?_singleton free
  rw [afterLead?_eq_some_iff.1 h, cutAt?_singleton freeOld] at ours
  exact (Prod.mk.inj (Option.some.inj ours)).1.symm

theorem isConstructorLine_tokenLine : isConstructorLine (tokenLine .constructor set (t :: more)) = true := by
  obtain ⟨rest, shape⟩ := exists_tokenLine_cons .constructor set t more
  rw [shape]
  exact List.isPrefixOf_iff_prefix.2 ⟨rest, by simp [MemberKind.tag]⟩

/-- A constructor is renamed if it has the name. -/
theorem renameConstructor_tokenLine {old : List Char} (named : Clear legacyBrackets [' '] name) (free : '(' ∉ name)
    (freeOld : '(' ∉ old) (each : ∀ u ∈ us, IsOldType u) (clear : ∀ u ∈ more, Clear legacyBrackets [' '] u)
    (new : List Char) :
    renameConstructor old new (tokenLine .constructor set (callToken name (join [','] us) :: more)) =
      .ok (tokenLine .constructor set
        (callToken (if name = old then new else name) (join [','] us) :: more)) := by
  have cut : cutTokens (tokenLine .constructor set (callToken name (join [','] us) :: more)) =
      .ok (leads .constructor set ++ callToken name (join [','] us) :: more) :=
    cutTokens_cons (clear_callToken named each) clear
  have given := callToken_ne_nil name (join [','] us)
  have front : ∀ u ∈ leads .constructor set, (!u.contains '(') = true := by
    intro u mem
    simpa using noCall_of_mem_leads mem
  have place : ((leads .constructor set ++ callToken name (join [','] us) :: filled more).takeWhile
      (!·.contains '(')).length = (leads .constructor set).length := by
    rw [List.takeWhile_append_of_pos front]
    simp [mem_callToken]
  have inside : ¬(leads .constructor set ++ callToken name (join [','] us) :: filled more).length ≤
      (leads .constructor set).length := by
    simp
  unfold renameConstructor
  simp only [isConstructorLine_tokenLine, Bool.not_true, Bool.false_eq_true, if_false, cut, ok_bind,
    filled_leads_append given, place, if_neg inside, changeToken_leads _ .constructor set given more]
  by_cases same : name = old
  · subst same
    simp only [afterLead?_callToken, map_ok, ok_bind]
    simp [tokenLine, callToken]
  · rw [if_neg same]
    split
    · rename_i rest found
      exact absurd (eq_of_afterLead?_callToken free freeOld found) same
    · rfl

end ApiSurface.Legacy
