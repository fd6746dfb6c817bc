import ApiSurface.Proofs.JavaType.Acyclic
import ApiSurface.Proofs.Text.Balanced

/-!
Lists of type parameters as they may be written. A parameter is a name, or a name and its bounds: the first one is
the name of a type, with type arguments or without, and others may follow behind an ampersand, which do not count.
Blanks may stand around all of these. Main statement: such a list binds each name to its first bound without
arguments, and to the class of all objects if it has none (`Erasure.bindingsOf_of_isParameterList`).
-/

namespace ApiSurface

open ApiSurface.Text

/-! ### The text of a list -/

/-- The name of a type as it is written, and without type arguments: identifiers with dots between them, where
arguments in angle brackets may stand behind any of them. -/
inductive SpellsName : List Char → List Char → Prop
  | name {id} (lettered : IsLettered id) : SpellsName id id
  | member {text plain id} (outer : SpellsName text plain) (lettered : IsLettered id) :
    SpellsName (text ++ '.' :: id) (plain ++ '.' :: id)
  | arguments {text plain inner} (outer : SpellsName text plain) (balanced : Balanced brackets inner)
    (noQuote : ∀ c ∈ inner, ¬IsQuote c) : SpellsName (text ++ ('<' :: inner ++ ['>'])) plain

/-- What may stand behind the first bound: nothing, or an ampersand and whatever belongs to the same item. -/
inductive FurtherBounds : List Char → Prop
  | none : FurtherBounds []
  | and {blanks more} (blank : ∀ c ∈ blanks, isBlank c) (balanced : Balanced brackets more)
    (noComma : NoStop brackets [','] more) : FurtherBounds (blanks ++ '&' :: more)

/-- One parameter as it is written, the variable that it declares, and the first bound without arguments. -/
inductive DeclaresParameter : List Char → List Char × List Char → Prop
  | unbounded {name} (lettered : IsLettered name) : DeclaresParameter name (name, objectName)
  | bounded {name before after text plain more} (lettered : IsLettered name)
    (blank : ∀ c ∈ before ++ after, isBlank c) (first : SpellsName text plain) (further : FurtherBounds more) :
    DeclaresParameter (name ++ before ++ " extends ".toList ++ (after ++ text ++ more)) (name, plain)

/-- A list of type parameters between angle brackets, and what it declares in turn. -/
def IsParameterList (text : List Char) (declared : List (List Char × List Char)) : Prop :=
  ∃ parameters, trim text = '<' :: join [','] parameters ++ ['>'] ∧
    List.Forall₂ (fun parameter entry => DeclaresParameter (trim parameter) entry) parameters declared

/-! ### Blanks and names -/

theorem isBlank_of_isNameChar {c : Char} (h : isNameChar c) : isBlank c = false := by
  simp only [isNameChar, Bool.or_eq_true, beq_iff_eq] at h
  rcases h with ((letter | rfl) | rfl) | rfl
  · exact isBlank_of_isLetterOrDigit letter
  · decide
  · decide
  · decide

theorem ne_of_isBlank {c d : Char} (blank : isBlank c) (solid : isBlank d = false) : c ≠ d := by
  rintro rfl
  rw [blank] at solid
  cases solid

/-- Blanks are clear of everything that is none. -/
theorem clear_of_blank {opens stops t : List Char} (sub : opens ⊆ brackets)
    (solid : ∀ c ∈ stops, isBlank c = false) (blank : ∀ c ∈ t, isBlank c) : Clear opens stops t :=
  clear_of_plain sub fun c mem => ⟨notMem_marks_of_isBlank (blank c mem), fun stop => by
    have other := solid c stop
    rw [blank c mem] at other
    cases other⟩

theorem trimStart_append_of_blank {lead t : List Char} (blank : ∀ c ∈ lead, isBlank c) :
    trimStart (lead ++ t) = trimStart t :=
  List.dropWhile_append_of_pos blank

theorem trimEnd_append_of_blank {tail t : List Char} (blank : ∀ c ∈ tail, isBlank c) :
    trimEnd (t ++ tail) = trimEnd t := by
  rw [trimEnd, List.reverse_append, List.dropWhile_append_of_pos fun c mem => blank c (List.mem_reverse.1 mem), trimEnd]

/-- Trimming gives back what stands between blanks. -/
theorem trim_between {lead t tail : List Char} (leads : ∀ c ∈ lead, isBlank c) (trimmed : Trimmed t)
    (filled : t ≠ []) (tails : ∀ c ∈ tail, isBlank c) : trim (lead ++ t ++ tail) = t := by
  have front : trimStart (t ++ tail) = t ++ tail := by
    cases t with
    | nil => exact absurd rfl filled
    | cons c t => exact trimStart_cons (trimmed.1 c (by simp))
  rw [trim, List.append_assoc, trimStart_append_of_blank leads, front, trimEnd_append_of_blank tails,
    trimEnd_eq_self trimmed.2]

/-- A text of name characters is trimmed. -/
theorem trimmed_of_nameChars {t : List Char} (chars : ∀ c ∈ t, isNameChar c) : Trimmed t :=
  ⟨fun c mem => isBlank_of_isNameChar (chars c (List.mem_of_mem_head? mem)),
    fun c mem => isBlank_of_isNameChar (chars c (List.mem_of_getLast? mem))⟩

theorem notMem_of_nameChars {c : Char} {t : List Char} (chars : ∀ d ∈ t, isNameChar d)
    (other : isNameChar c = false) : c ∉ t := by
  intro mem
  rw [chars c mem] at other
  cases other

theorem IsLettered.noDot {t : List Char} (h : IsLettered t) : '.' ∉ t := h.identifier.noDot

/-! ### The name of a type -/

/-- Behind a dot, a name is spelled as it is. -/
theorem spelledAsIs_dot {id : List Char} (lettered : IsLettered id) : SpelledAsIs ('.' :: id) := by
  intro rest
  cases id with
  | nil => exact absurd rfl lettered.filled
  | cons c id =>
    have noDot : c ≠ '.' := fun same => lettered.noDot (by simp [same])
    have whole := spelledAsIs_of_notMem lettered.noDot rest
    rw [List.cons_append] at whole
    rw [List.cons_append, List.cons_append, spellArrays_dot noDot, whole]
    rfl

namespace SpellsName

variable {text plain : List Char}

theorem filled (h : SpellsName text plain) : plain ≠ [] := by
  induction h with
  | name lettered => exact lettered.filled
  | member outer lettered ih => simp
  | arguments outer balanced noQuote ih => exact ih

theorem chars (h : SpellsName text plain) : ∀ c ∈ plain, isNameChar c := by
  induction h with
  | name lettered => exact lettered.nameChars
  | member outer lettered ih =>
    intro c mem
    rcases List.mem_append.1 mem with mem | mem
    · exact ih c mem
    · rcases List.mem_cons.1 mem with rfl | mem
      · decide
      · exact lettered.nameChars c mem
  | arguments outer balanced noQuote ih => exact ih

theorem spelled (h : SpellsName text plain) : SpelledAsIs plain := by
  induction h with
  | name lettered => exact spelledAsIs_of_notMem lettered.noDot
  | member outer lettered ih => exact ih.append (spelledAsIs_dot lettered)
  | arguments outer balanced noQuote ih => exact ih

theorem clear (h : SpellsName text plain) : Clear brackets [','] text := by
  have all := List.Subset.refl brackets
  have word {id : List Char} (lettered : IsLettered id) : Clear brackets [','] id :=
    (renders_identifier lettered.identifier).clear.of_subset (by decide)
  induction h with
  | name lettered => exact word lettered
  | member outer lettered ih =>
    have dot : Clear brackets [','] ['.'] := clear_of_plain all (by decide)
    exact ih.append (dot.append (word lettered))
  | @arguments text plain inner outer balanced noQuote ih =>
    have inside : Clear brackets [] inner := (clear_iff_balanced all).2 ⟨balanced, by simp [NoStop]⟩
    exact ih.append (inside.bracketed all (by decide) (by decide))

end SpellsName

/-- Between angle brackets a balanced text without literals is dropped. -/
theorem dropArguments_balanced {t : List Char} (h : Balanced brackets t) (noQuote : ∀ c ∈ t, ¬IsQuote c)
    (depth : Nat) (rest : List Char) : dropArguments (depth + 1) (t ++ rest) = dropArguments (depth + 1) rest := by
  have other {c : Char} (noOpener : c ≠ '<') (noCloser : c ≠ '>') (depth : Nat) (cs : List Char) :
      dropArguments (depth + 1) (c :: cs) = dropArguments (depth + 1) cs := by
    rw [dropArguments, if_neg noOpener, if_neg fun closes => noCloser closes.1, if_neg (Nat.add_one_ne_zero depth)]
  have angle (depth : Nat) (cs : List Char) :
      dropArguments (depth + 1) ('<' :: cs) = dropArguments (depth + 1 + 1) cs ∧
        dropArguments (depth + 1 + 1) ('>' :: cs) = dropArguments (depth + 1) cs := by
    simp [dropArguments]
  induction h generalizing depth rest with
  | nil => rfl
  | @plain c t _ noOpener noCloser more ih =>
    have noOpen : c ≠ '<' := fun same => noOpener (by simp [same, brackets])
    have noClose : c ≠ '>' := fun same => noCloser (by simp [same, brackets, closerOf])
    rw [List.cons_append, other noOpen noClose, ih fun d mem => noQuote d (by simp [mem])]
  | @literal quote body t isQuote inside more ih => exact absurd isQuote (noQuote quote (by simp))
  | @pair bracket inner t opener inside more ihInner ih =>
    have inner' := ihInner fun d mem => noQuote d (by simp [mem])
    have behind := ih (fun d mem => noQuote d (by simp [mem])) depth rest
    have known : bracket = '(' ∨ bracket = '[' ∨ bracket = '<' := by simpa [brackets] using opener
    rw [List.append_assoc, List.cons_append, List.cons_append]
    rcases known with rfl | rfl | rfl
    · rw [other (by decide) (by decide), inner', other (by decide) (by decide), behind]
    · rw [other (by decide) (by decide), inner', other (by decide) (by decide), behind]
    · have closer : closerOf '<' = '>' := rfl
      rw [(angle depth _).1, inner', closer, (angle depth _).2, behind]

/-- The arguments of a name are dropped. -/
theorem SpellsName.drops {text plain : List Char} (h : SpellsName text plain) (rest : List Char) :
    dropArguments 0 (text ++ rest) = plain ++ dropArguments 0 rest := by
  have word {id : List Char} (lettered : IsLettered id) (rest : List Char) :
      dropArguments 0 (id ++ rest) = id ++ dropArguments 0 rest := by
    simpa using (renders_identifier lettered.identifier).drops 0 rest
  induction h generalizing rest with
  | name lettered => exact word lettered rest
  | member outer lettered ih =>
    rw [List.append_assoc, ih, List.cons_append, List.append_assoc, List.cons_append]
    simp [dropArguments, word lettered]
  | @arguments text plain inner outer balanced noQuote ih =>
    have inside := dropArguments_balanced balanced noQuote 0 ('>' :: rest)
    rw [List.append_assoc, ih, List.append_assoc]
    simp [dropArguments, inside]

/-! ### What a parameter binds -/

/-- The word in front of the bounds does not begin further in front. -/
theorem notInfix_extends {name before : List Char} (noSpace : ' ' ∉ name) (blank : ∀ c ∈ before, isBlank c) :
    ¬" extends ".toList <:+: name ++ before ++ " extends".toList := by
  rintro ⟨front, back, whole⟩
  -- the space that the word begins with is behind the name, and only one `x` is there
  have behind : ∃ front, before ++ " extends".toList = front ++ " extends ".toList ++ back := by
    rw [List.append_assoc, List.append_assoc name] at whole
    rcases List.append_eq_append_iff.1 whole with ⟨middle, named, rest⟩ | ⟨middle, rfl, rest⟩
    · cases middle with
      | nil => exact ⟨[], by simpa using rest.symm⟩
      | cons c middle =>
        obtain rfl : ' ' = c := (List.cons.inj rest).1
        exact absurd (by simp [named]) noSpace
    · exact ⟨middle, by rw [rest, List.append_assoc]⟩
  obtain ⟨front, same⟩ := behind
  have noX : 'x' ∉ before ++ [' ', 'e'] := by
    intro mem
    rcases List.mem_append.1 mem with mem | mem
    · exact ne_of_isBlank (blank 'x' mem) (by decide) rfl
    · revert mem
      decide
  have cut : before ++ [' ', 'e'] ++ 'x' :: "tends".toList =
      front ++ [' ', 'e'] ++ 'x' :: ("tends ".toList ++ back) := by
    simpa using same
  obtain ⟨-, -, ends⟩ := (List.append_cons_inj_of_notMem noX (by decide)).1 cut
  have length := congrArg List.length ends
  simp at length

theorem FurtherBounds.clear {more : List Char} (h : FurtherBounds more) : Clear brackets [','] more := by
  have all := List.Subset.refl brackets
  cases h with
  | none => exact clear_nil
  | and blank balanced noComma =>
    have ampersand : Clear brackets [','] ['&'] := clear_of_plain all (by decide)
    exact (clear_of_blank all (by decide) blank).append
      (ampersand.append ((clear_iff_balanced all).2 ⟨balanced, noComma⟩))

/-- The first bound is what stands in front of an ampersand. -/
theorem trim_first_bound {after text plain more : List Char} (blank : ∀ c ∈ after, isBlank c)
    (first : SpellsName text plain) (further : FurtherBounds more) :
    trim ((pieces '&' (stripGenerics (after ++ text ++ more))).headD []) = plain := by
  have noDots : SpelledAsIs after :=
    spelledAsIs_of_notMem fun mem => ne_of_isBlank (blank '.' mem) (by decide) rfl
  have noAngle {t : List Char} (blank : ∀ c ∈ t, isBlank c) (rest : List Char) :
      dropArguments 0 (t ++ rest) = t ++ dropArguments 0 rest := by
    induction t with
    | nil => rfl
    | cons c t ih =>
      have noOpen := ne_of_isBlank (d := '<') (blank c (by simp)) (by decide)
      simp [dropArguments, noOpen, ih fun d mem => blank d (by simp [mem])]
  have noMark {t : List Char} (blank : ∀ c ∈ t, isBlank c) : '&' ∉ t :=
    fun mem => ne_of_isBlank (blank '&' mem) (by decide) rfl
  have named := notMem_of_nameChars (c := '&') first.chars (by decide)
  have trimmed := trimmed_of_nameChars first.chars
  have drops : stripGenerics (after ++ text ++ more) = after ++ plain ++ stripGenerics more := by
    rw [stripGenerics, List.append_assoc, noAngle blank, first.drops, noDots, first.spelled, ← List.append_assoc,
      ← stripGenerics]
  rw [drops]
  cases further with
  | none =>
    have free : '&' ∉ after ++ plain := by simp [noMark blank, named]
    have ends : stripGenerics [] = [] := rfl
    rw [ends, List.append_nil, pieces_of_notMem free]
    have bound : trim (after ++ plain ++ []) = plain := trim_between blank trimmed first.filled (by simp)
    simpa using bound
  | @and blanks more blankMore balanced noComma =>
    have free : '&' ∉ after ++ plain ++ blanks := by simp [noMark blank, noMark blankMore, named]
    have noDots' : SpelledAsIs blanks :=
      spelledAsIs_of_notMem fun mem => ne_of_isBlank (blankMore '.' mem) (by decide) rfl
    have rest : stripGenerics (blanks ++ '&' :: more) = blanks ++ '&' :: stripGenerics more := by
      rw [stripGenerics, noAngle blankMore, noDots']
      simp [dropArguments, spellArrays_cons, stripGenerics]
    rw [rest, ← List.append_assoc, pieces_append_cons free]
    exact trim_between blank trimmed first.filled blankMore

namespace DeclaresParameter

variable {text : List Char} {entry : List Char × List Char}

/-- A parameter binds what it declares. -/
theorem binding_eq (h : DeclaresParameter text entry) : Erasure.binding text = entry := by
  cases h with
  | unbounded lettered =>
    have noSpace := notMem_of_nameChars (c := ' ') lettered.nameChars (by decide)
    have uncut : cutAt? " extends ".toList text = none := by
      rw [cutAt?_eq_none_iff]
      exact fun inside => noSpace (inside.subset (by simp))
    rw [Erasure.binding, uncut]
    simp only [(trimmed_of_nameChars lettered.nameChars).trim_eq]
  | @bounded name before after text plain more lettered blank first further =>
    have noSpace := notMem_of_nameChars (c := ' ') lettered.nameChars (by decide)
    have blanks : (∀ c ∈ before, isBlank c) ∧ ∀ c ∈ after, isBlank c :=
      ⟨fun c mem => blank c (by simp [mem]), fun c mem => blank c (by simp [mem])⟩
    have cut : cutAt? " extends ".toList (name ++ before ++ " extends ".toList ++ (after ++ text ++ more)) =
        some (name ++ before, after ++ text ++ more) :=
      (cutAt?_eq_some_iff (by decide)).2 ⟨rfl, notInfix_extends noSpace blanks.1⟩
    have named : trim ([] ++ name ++ before) = name :=
      trim_between (by simp) (trimmed_of_nameChars lettered.nameChars) lettered.filled blanks.1
    rw [List.nil_append] at named
    rw [Erasure.binding, cut]
    simp only [named, trim_first_bound blanks.2 first further]

theorem clear (h : DeclaresParameter text entry) : Clear brackets [','] text := by
  have all := List.Subset.refl brackets
  have word {name : List Char} (lettered : IsLettered name) : Clear brackets [','] name :=
    (SpellsName.name lettered).clear
  cases h with
  | unbounded lettered => exact word lettered
  | @bounded name before after text plain more lettered blank first further =>
    have spaces {t : List Char} (sub : t ⊆ before ++ after) : Clear brackets [','] t :=
      clear_of_blank all (by decide) fun c mem => blank c (sub mem)
    have extends' : Clear brackets [','] " extends ".toList := clear_of_plain all (by decide)
    have front := ((word lettered).append (spaces (List.subset_append_left before after))).append extends'
    exact front.append (((spaces (List.subset_append_right before after)).append first.clear).append further.clear)

theorem filled (h : DeclaresParameter text entry) : text ≠ [] := by
  cases h with
  | unbounded lettered => exact lettered.filled
  | bounded lettered => simp

/-- A variable is a simple name, and its bound a name with dots. -/
theorem names (h : DeclaresParameter text entry) : IsLettered entry.1 ∧ ∃ text, SpellsName text entry.2 := by
  cases h with
  | unbounded lettered =>
    have java : SpellsName "java".toList "java".toList := .name (by decide)
    have lang : IsLettered "lang".toList := by decide
    have object : IsLettered "Object".toList := by decide
    exact ⟨lettered, _, (java.member lang).member object⟩
  | bounded lettered blank first => exact ⟨lettered, _, first⟩

end DeclaresParameter

/-! ### Lists -/

/-- The items of a list are its pieces without the blanks around them. -/
theorem items_join_of_clear {opens : List Char} {parts : List (List Char)}
    (each : ∀ p ∈ parts, Clear opens [','] p ∧ trim p ≠ []) :
    items opens (join [','] parts) = .ok (parts.map trim) := by
  cases parts with
  | nil =>
    have none : items opens (join [','] []) = .ok [] := items_join (by simp)
    exact none
  | cons first more =>
    have cut : segments opens ',' (join [','] (first :: more)) = .ok (first :: more) :=
      segments_eq_ok_iff.2 ⟨by simp, rfl, fun p mem => (each p mem).1⟩
    have keeps : ((first :: more).map trim).filter (!·.isEmpty) = (first :: more).map trim := by
      rw [List.filter_eq_self]
      intro t mem
      obtain ⟨p, inParts, rfl⟩ := List.mem_map.1 mem
      simp [(each p inParts).2]
    simp only [items, cut, Except.map, keeps]

/-- **A list of type parameters binds what its parameters declare.** -/
theorem Erasure.bindingsOf_of_isParameterList {text : List Char} {declared : List (List Char × List Char)}
    (h : IsParameterList text declared) : Erasure.bindingsOf text = declared := by
  obtain ⟨parameters, whole, each⟩ := h
  have all := List.Subset.refl brackets
  have declares : ∀ p ∈ parameters, ∃ entry, DeclaresParameter (trim p) entry := by
    clear whole
    induction each with
    | nil => simp
    | cons first _ ih => exact List.forall_mem_cons.2 ⟨⟨_, first⟩, ih⟩
  have pieces : ∀ p ∈ parameters, Clear brackets [','] p ∧ trim p ≠ [] := by
    intro p mem
    obtain ⟨entry, declares⟩ := declares p mem
    obtain ⟨lead, tail, around, leads, tails⟩ := exists_eq_append_trim p
    have blanks {t : List Char} (blank : ∀ c ∈ t, isBlank c) : Clear brackets [','] t :=
      clear_of_blank all (by decide) blank
    refine ⟨?_, declares.filled⟩
    rw [around]
    exact ((blanks leads).append declares.clear).append (blanks tails)
  have cut : (afterLead? ['<'] (trim text)).bind (beforeTail? ['>']) = some (join [','] parameters) := by
    have lead : afterLead? ['<'] ('<' :: join [','] parameters ++ ['>']) = some (join [','] parameters ++ ['>']) :=
      afterLead?_append ['<'] _
    rw [whole, lead, Option.bind_some, beforeTail?_append]
  have bound : (parameters.map trim).map Erasure.binding = declared := by
    clear whole pieces cut declares
    induction each with
    | nil => rfl
    | cons declares _ ih => rw [List.map_cons, List.map_cons, declares.binding_eq, ih]
  simp only [Erasure.bindingsOf, cut, items_join_of_clear pieces, bound]

end ApiSurface
