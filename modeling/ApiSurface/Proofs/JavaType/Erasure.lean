import ApiSurface.Proofs.JavaType.Render
import ApiSurface.Proofs.Line.Token

/-!
Erasure in a scope of type variables. What a variable stands for is a type without arguments, so a type in
which variables were replaced is one again. Main statements: legal type parameters bring sound bindings into
scope (`Erasure.Sound.nest`), in a sound scope an erased type is flat and no keyword (`IsFlat.erase`,
`notKeyword_erase`), and a list of types is erased one by one (`erase_join`).
-/

namespace ApiSurface

open ApiSurface.Text ApiSurface.Line Nesting

namespace Erasure

/-- A scope in which every variable stands for a type without arguments that is no keyword. -/
def Sound (scope : Erasure) : Prop := ∀ entry ∈ scope.bindings, IsFlat entry.2 ∧ NotKeyword entry.2

theorem sound_empty : empty.Sound := by simp [Sound, empty]

theorem flat_objectName : IsFlat objectName ∧ NotKeyword objectName := by
  have parts : IsQualified objectName :=
    ⟨["java".toList, "lang".toList, "Object".toList], by decide, by decide, by
      intro p mem
      simp only [List.mem_cons, List.not_mem_nil, or_false] at mem
      rcases mem with rfl | rfl | rfl <;> exact ⟨by decide, by decide⟩⟩
  exact ⟨parts.flat, by unfold NotKeyword; decide⟩

variable {scope : Erasure}

/-- Whatever steps are taken, the end is a bound or the class of all objects, or no step is taken. -/
theorem follow_eq_or {P : List Char → Prop} (object : P objectName) (bounds : ∀ entry ∈ scope.bindings, P entry.2)
    (steps : Nat) (name : List Char) : scope.follow steps name = name ∨ P (scope.follow steps name) := by
  induction steps generalizing name with
  | zero =>
    unfold follow
    split
    · exact .inl rfl
    · exact .inr object
  | succ steps ih =>
    unfold follow
    split
    · exact .inl rfl
    · rename_i bound found
      obtain ⟨entry, inScope, rfl⟩ := Option.map_eq_some_iff.1 found
      refine .inr ?_
      rcases ih entry.2 with same | ends
      · simp only [same]
        exact bounds entry (List.mem_of_find?_eq_some inScope)
      · exact ends

/-- A name stays, or becomes a bound or the class of all objects. -/
theorem replace_eq_or {P : List Char → Prop} (object : P objectName) (bounds : ∀ entry ∈ scope.bindings, P entry.2)
    (name : List Char) : scope.replace name = name ∨ P (scope.replace name) := by
  unfold replace resolve?
  split
  · rename_i none
    exact .inl (List.isEmpty_iff.1 none).symm
  · cases scope.lookup? name with
    | none => exact .inl rfl
    | some bound => exact follow_eq_or object bounds _ name

/-- A name stays, or becomes a type without arguments. -/
theorem Sound.replace (sound : scope.Sound) (name : List Char) :
    scope.replace name = name ∨ (IsFlat (scope.replace name) ∧ NotKeyword (scope.replace name)) :=
  replace_eq_or (P := fun t => IsFlat t ∧ NotKeyword t) flat_objectName sound name

/-! ### Replacing variables in a text -/

theorem notMem_of_isNameChar {c : Char} (h : isNameChar c) : c ∉ marks ∧ c ∉ [' ', ','] := by
  have none : ∀ d ∈ marks ++ [' ', ','], isNameChar d = false := by decide
  refine ⟨fun mem => ?_, fun mem => ?_⟩
  · rw [none c (List.mem_append_left _ mem)] at h
    cases h
  · rw [none c (List.mem_append_right _ mem)] at h
    cases h

/-- A flat text changes nothing of what is open. -/
theorem through_of_flat {stops : List Char} (sub : stops ⊆ [' ', ',']) {n : Nesting}
    (out : n.literal = .outside) {t : List Char} (flat : IsFlat t) :
    n.through brackets stops t = some n := by
  obtain ⟨stack, literal⟩ := n
  obtain rfl : literal = .outside := out
  by_cases empty : stack = []
  · subst empty
    exact flat.clear.of_subset sub
  · simpa [top] using through_deeper empty flat.clear

theorem literal_of_step {n m : Nesting} {c : Char} (out : n.literal = .outside)
    (noQuote : ¬(c = '"' ∨ c = '\'')) (h : n.step brackets c = .ok m) : m.literal = .outside := by
  obtain ⟨stack, literal⟩ := n
  obtain rfl : literal = .outside := out
  simp only [step, noQuote, if_false] at h
  split_ifs at h
  · cases h
    rfl
  · cases stack with
    | nil => cases h
    | cons bracket outer =>
      simp only at h
      split_ifs at h
      cases h
      rfl
  · cases h
    rfl

theorem noQuote_of_isTypeChar {c : Char} (h : isTypeChar c) : ¬(c = '"' ∨ c = '\'') := by
  rintro (rfl | rfl) <;> revert h <;> decide

/-- Replacing variables leaves open what was open. -/
theorem Sound.through_replaceAll (sound : scope.Sound) {stops : List Char} (sub : stops ⊆ [' ', ','])
    {t : List Char} (chars : ∀ c ∈ t, isTypeChar c) {name : List Char} (named : ∀ c ∈ name, isNameChar c)
    {n : Nesting} (out : n.literal = .outside) :
    n.through brackets stops (scope.replaceAll name t) = n.through brackets stops (name ++ t) := by
  have plain {name : List Char} (named : ∀ c ∈ name, isNameChar c) {n : Nesting}
      (out : n.literal = .outside) : n.through brackets stops name = some n ∧
        n.through brackets stops (scope.replace name) = some n := by
    have same : n.through brackets stops name = some n :=
      through_of_plain (List.Subset.refl _) out fun c mem =>
        ⟨(notMem_of_isNameChar (named c mem)).1, fun stop => (notMem_of_isNameChar (named c mem)).2 (sub stop)⟩
    refine ⟨same, ?_⟩
    rcases sound.replace name with kept | ⟨flat, -⟩
    · rw [kept, same]
    · exact through_of_flat sub out flat
  induction t generalizing name n with
  | nil => rw [replaceAll, List.append_nil, (plain named out).1, (plain named out).2]
  | cons c t ih =>
    have rest : ∀ d ∈ t, isTypeChar d := fun d mem => chars d (by simp [mem])
    rw [replaceAll]
    split
    · rename_i part
      rw [ih rest (fun d mem => ?_) out]
      · simp
      · rcases List.mem_append.1 mem with mem | mem
        · exact named d mem
        · obtain rfl := List.mem_singleton.1 mem
          exact part
    · rw [through_append, through_append, (plain named out).1, (plain named out).2]
      simp only [Option.bind_some, through]
      split
      · rfl
      · cases stepped : n.step brackets c with
        | error fault => rfl
        | ok next =>
          have outside := literal_of_step out (noQuote_of_isTypeChar (chars c (by simp))) stepped
          exact ih rest (by simp) outside

/-- What holds of all characters of a text and of the bounds in scope holds where variables were replaced. -/
theorem forall_mem_replaceAll {p : Char → Prop} (object : ∀ c ∈ objectName, p c)
    (bounds : ∀ entry ∈ scope.bindings, ∀ c ∈ entry.2, p c) {t name : List Char} (chars : ∀ c ∈ t, p c)
    (named : ∀ c ∈ name, p c) : ∀ c ∈ scope.replaceAll name t, p c := by
  have replaced {name : List Char} (named : ∀ c ∈ name, p c) : ∀ c ∈ scope.replace name, p c := by
    rcases replace_eq_or (P := fun t => ∀ c ∈ t, p c) object bounds name with kept | bound
    · rwa [kept]
    · exact bound
  induction t generalizing name with
  | nil => exact replaced named
  | cons c t ih =>
    have rest : ∀ d ∈ t, p d := fun d mem => chars d (by simp [mem])
    rw [replaceAll]
    split
    · refine ih rest fun d mem => ?_
      rcases List.mem_append.1 mem with mem | mem
      · exact named d mem
      · obtain rfl := List.mem_singleton.1 mem
        exact chars d (by simp)
    · intro d mem
      rcases List.mem_append.1 mem with mem | mem
      · exact replaced named d mem
      · rcases List.mem_cons.1 mem with rfl | mem
        · exact chars d (by simp)
        · exact ih rest (by simp) d mem

theorem Sound.chars_replaceAll (sound : scope.Sound) {t : List Char} (chars : ∀ c ∈ t, isTypeChar c) :
    ∀ c ∈ scope.replaceAll [] t, isTypeChar c :=
  forall_mem_replaceAll flat_objectName.1.chars (fun entry mem => (sound entry mem).1.chars) chars (by simp)

theorem Sound.replaceAll_ne_nil (sound : scope.Sound) {t name : List Char} (filled : name ++ t ≠ []) :
    scope.replaceAll name t ≠ [] := by
  induction t generalizing name with
  | nil =>
    rw [List.append_nil] at filled
    rw [replaceAll]
    rcases sound.replace name with kept | ⟨flat, -⟩
    · rwa [kept]
    · exact flat.filled
  | cons c t ih =>
    rw [replaceAll]
    split
    · exact ih (by simp)
    · simp

/-- Nothing but the first character of a text and of the bounds in scope comes first where variables were
replaced. -/
theorem Sound.starts_replaceAll (sound : scope.Sound) {t name : List Char}
    (starts : ∀ c ∈ (name ++ t).head?, c ≠ '[') : ∀ c ∈ (scope.replaceAll name t).head?, c ≠ '[' := by
  -- a name that is not empty stays so, hence what follows it does not come first
  have replaced (name : List Char) (filled : name ≠ []) (starts : ∀ c ∈ name.head?, c ≠ '[') :
      scope.replace name ≠ [] ∧ ∀ c ∈ (scope.replace name).head?, c ≠ '[' := by
    rcases sound.replace name with kept | ⟨flat, -⟩
    · rw [kept]
      exact ⟨filled, starts⟩
    · exact ⟨flat.filled, flat.starts⟩
  induction t generalizing name with
  | nil =>
    rw [List.append_nil] at starts
    rw [replaceAll]
    cases name with
    | nil => simp [Erasure.replace]
    | cons d name => exact (replaced _ (by simp) starts).2
  | cons c t ih =>
    rw [replaceAll]
    split
    · exact ih (by simpa using starts)
    · cases name with
      | nil => simpa [Erasure.replace] using starts
      | cons d name =>
        obtain ⟨filled, first⟩ := replaced (d :: name) (by simp) (by simpa using starts)
        rw [List.head?_append_of_ne_nil _ filled]
        exact first

/-- What is part of no name stays. -/
theorem mem_replaceAll {c : Char} (other : isNameChar c = false) {t name : List Char} (mem : c ∈ t) :
    c ∈ scope.replaceAll name t := by
  induction t generalizing name with
  | nil => cases mem
  | cons d t ih =>
    rw [replaceAll]
    rcases List.mem_cons.1 mem with rfl | mem
    · rw [if_neg (by simp [other])]
      simp
    · split
      · exact ih mem
      · simp [ih mem]

theorem replaceAll_of_name {t name : List Char} (chars : ∀ c ∈ t, isNameChar c) :
    scope.replaceAll name t = scope.replace (name ++ t) := by
  induction t generalizing name with
  | nil => rw [replaceAll, List.append_nil]
  | cons c t ih =>
    rw [replaceAll, if_pos (chars c (by simp)), ih fun d mem => chars d (by simp [mem])]
    simp

theorem isNameChar_of_keyword {t : List Char} (h : ¬NotKeyword t) : ∀ c ∈ t, isNameChar c := by
  obtain ⟨m, found⟩ := Option.ne_none_iff_exists'.1 h
  have word := keyword?_of_ofKeyword? found
  have chars : t = (String.ofList t).toList := by simp
  rw [chars]
  generalize String.ofList t = text at word
  cases m <;> simp only [Modifier.keyword?, Option.some.injEq, reduceCtorEq] at word <;> subst word <;> decide

/-- In a sound scope no keyword comes up. -/
theorem Sound.notKeyword_replaceAll (sound : scope.Sound) {t : List Char} (word : NotKeyword t) :
    NotKeyword (scope.replaceAll [] t) := by
  by_contra keyword
  have all := isNameChar_of_keyword keyword
  have named : ∀ c ∈ t, isNameChar c := by
    intro c mem
    by_contra other
    exact other (all c (mem_replaceAll (by simpa using other) mem))
  rw [replaceAll_of_name named, List.nil_append] at keyword
  rcases sound.replace t with kept | ⟨-, word'⟩
  · rw [kept] at keyword
    exact keyword word
  · exact keyword word'

/-! ### Erased types -/

/-- In a sound scope an erased text holds the characters of types, and as much is open in it. -/
theorem Sound.erase (sound : scope.Sound) {text : List Char} {stops : List Char} (sub : stops ⊆ [' ', ','])
    (chars : ∀ c ∈ stripGenerics text, isTypeChar c) (clear : Clear brackets stops (stripGenerics text)) :
    (∀ c ∈ scope.erase text, isTypeChar c) ∧ Clear brackets stops (scope.erase text) := by
  unfold Erasure.erase
  split
  · exact ⟨chars, clear⟩
  · refine ⟨sound.chars_replaceAll chars, ?_⟩
    have walk := sound.through_replaceAll sub chars (by simp : ∀ c ∈ [], isNameChar c) (n := .top) rfl
    exact walk.trans clear

/-- In a sound scope an erased type is flat. -/
theorem Sound.flat_erase (sound : scope.Sound) {t : JavaType} (h : t.Legal) : IsFlat (scope.erase t.render) := by
  have flat := h.flat.1
  have strip := stripGenerics_render h
  obtain ⟨chars, clear⟩ := sound.erase (List.Subset.refl _) (by rw [strip]; exact flat.chars)
    (by rw [strip]; exact flat.clear)
  have bounds : ∀ entry ∈ scope.bindings, ∀ c ∈ entry.2, c ≠ ',' :=
    fun entry inScope c mem same => (sound entry inScope).1.noComma (same ▸ mem)
  have none : scope.erase t.render ≠ [] ∧ ',' ∉ scope.erase t.render ∧
      ∀ c ∈ (scope.erase t.render).head?, c ≠ '[' := by
    unfold Erasure.erase
    rw [strip]
    split
    · exact ⟨flat.filled, flat.noComma, flat.starts⟩
    · refine ⟨sound.replaceAll_ne_nil (by simpa using flat.filled), fun mem => ?_,
        sound.starts_replaceAll (by simpa using flat.starts)⟩
      exact forall_mem_replaceAll (by decide) bounds (fun c mem same => flat.noComma (same ▸ mem)) (by simp) ',' mem rfl
  exact ⟨none.1, chars, none.2.1, none.2.2, clear⟩

/-- In a sound scope the erased form of a type is no keyword. -/
theorem Sound.notKeyword_erase (sound : scope.Sound) {t : JavaType} (h : t.Legal)
    (word : NotKeyword t.erased) : NotKeyword (scope.erase t.render) := by
  unfold Erasure.erase
  rw [stripGenerics_render h]
  split
  · exact word
  · exact sound.notKeyword_replaceAll word

/-! ### Lists of types -/

/-- What is part of no name parts what is replaced. -/
theorem replaceAll_append_cons {c : Char} (other : isNameChar c = false) {a name : List Char} (b : List Char) :
    scope.replaceAll name (a ++ c :: b) = scope.replaceAll name a ++ c :: scope.replaceAll [] b := by
  induction a generalizing name with
  | nil => simp [replaceAll, other]
  | cons d a ih =>
    rw [List.cons_append, replaceAll, replaceAll]
    split
    · exact ih
    · simp [ih]

/-- The brackets of an array stay. -/
theorem replaceAll_dimension (t name : List Char) :
    scope.replaceAll name (t ++ ['[', ']']) = scope.replaceAll name t ++ ['[', ']'] := by
  have closed : scope.replaceAll [] [']'] = [']'] := by
    have other : isNameChar ']' = false := by decide
    simp [replaceAll, replace, other]
  rw [replaceAll_append_cons (by decide), closed]

/-- A list of types is erased one by one. -/
theorem erase_types {ts : List JavaType} (h : ∀ t ∈ ts, t.Legal) :
    scope.erase (renderTypes ts) = join [','] (ts.map fun t => scope.erase t.render) := by
  have strip := stripGenerics_types h []
  simp only [List.append_nil, stripGenerics, dropArguments, spellArrays] at strip
  have each : ts.map (fun t => scope.erase t.render) =
      ts.map fun t => if scope.bindings.isEmpty then t.erased else scope.replaceAll [] t.erased := by
    refine List.map_congr_left fun t mem => ?_
    unfold Erasure.erase
    rw [stripGenerics_render (h t mem)]
  rw [each]
  unfold Erasure.erase
  rw [stripGenerics, strip]
  split
  · rfl
  · clear strip each
    induction ts with
    | nil => rfl
    | cons t ts ih =>
      have later := ih fun u mem => h u (by simp [mem])
      cases ts with
      | nil => simp [erasedTypes]
      | cons u ts =>
        simp only [erasedTypes, List.map_cons, join_cons_cons, List.append_assoc, List.singleton_append]
          at later ⊢
        rw [replaceAll_append_cons (by decide), later]

end Erasure

/-! ### Bindings of type parameters -/

/-- A type parameter whose names are names. -/
structure TypeParameter.Named (p : TypeParameter) : Prop where
  name : IsIdentifier p.name
  bounds : ∀ b ∈ p.bounds, b.Legal

theorem TypeParameter.Named.uppers {p : TypeParameter} (h : p.Named) : ∀ b ∈ p.uppers, b.Legal := by
  unfold TypeParameter.uppers
  split
  · intro b mem
    obtain rfl := List.mem_singleton.1 mem
    exact JavaType.legal_object
  · exact h.bounds

/-- Type parameters between angle brackets are one piece of a line. -/
theorem renders_parameters {ps : List TypeParameter} (h : ∀ p ∈ ps, p.Named) :
    Renders [' '] (renderParameters ps) [] := by
  have each : ∃ ts : List (List Char × List Char), ts.map Prod.fst = ps.map TypeParameter.render ∧
      ∀ t ∈ ts, Renders [] t.1 t.2 := by
    induction ps with
    | nil => exact ⟨[], rfl, by simp⟩
    | cons p ps ih =>
      obtain ⟨ts, shape, all⟩ := ih fun q inList => h q (by simp [inList])
      obtain ⟨e, first⟩ := renders_parameter (h p (by simp)).name (h p (by simp)).uppers
      exact ⟨(p.render, e) :: ts, by simp [shape], by simpa using ⟨first.of_subset (by simp), fun a b => all (a, b)⟩⟩
  obtain ⟨ts, shape, all⟩ := each
  have comma : Renders [] [','] [','] := .word (by simp)
  have inner := comma.join all
  rw [shape] at inner
  exact inner.arguments (by decide)

/-- A type parameter with a name and legal bounds that are no keywords. -/
structure TypeParameter.Legal (p : TypeParameter) : Prop where
  name : IsIdentifier p.name
  bounds : ∀ b ∈ p.bounds, b.Legal ∧ NotKeyword b.erased

theorem TypeParameter.Legal.named {p : TypeParameter} (h : p.Legal) : p.Named :=
  ⟨h.name, fun b mem => (h.bounds b mem).1⟩

theorem TypeParameter.Legal.uppers {p : TypeParameter} (h : p.Legal) :
    ∀ b ∈ p.uppers, b.Legal ∧ NotKeyword b.erased := by
  unfold TypeParameter.uppers
  split
  · intro b mem
    obtain rfl := List.mem_singleton.1 mem
    exact ⟨JavaType.legal_object, by decide⟩
  · exact h.bounds

theorem TypeParameter.uppers_ne_nil (p : TypeParameter) : p.uppers ≠ [] := by
  unfold TypeParameter.uppers
  split
  · simp
  · rename_i some
    simpa using some

theorem trim_append_space {t : List Char} (h : Trimmed t) : trim (t ++ [' ']) = t := by
  have space : isBlank ' ' = true := by decide
  cases t with
  | nil => decide
  | cons c t =>
    have solid : isBlank c = false := h.1 c (by simp)
    have front : trimStart (c :: t ++ [' ']) = c :: t ++ [' '] := trimStart_cons solid
    have back : trimEnd (c :: t ++ [' ']) = trimEnd (c :: t) := by simp [trimEnd, space]
    rw [trim, front, back, trimEnd_eq_self h.2]

theorem IsFlat.trimmed {t : List Char} (h : IsFlat t) : Trimmed t :=
  ⟨fun c mem => isBlank_of_isTypeChar (h.chars c (List.mem_of_mem_head? mem)),
    fun c mem => isBlank_of_isTypeChar (h.chars c (List.mem_of_getLast? mem))⟩

/-- A type parameter binds its name to its first bound without arguments. -/
theorem Erasure.binding_render {p : TypeParameter} (h : p.Named) :
    ∃ b more, p.uppers = b :: more ∧ Erasure.binding p.render = (p.name, b.erased) := by
  cases uppers : p.uppers with
  | nil => exact absurd uppers p.uppers_ne_nil
  | cons b more =>
    have legal := h.uppers b (by simp [uppers])
    have noSpace : ' ' ∉ p.name := fun mem => (notMem_of_isNamePart (h.name.parts ' ' mem)).2 (by simp)
    have cut : cutAt? " extends ".toList p.render =
        some (p.name, join " & ".toList (p.uppers.map JavaType.render)) := by
      refine (cutAt?_eq_some_iff (by decide)).2 ⟨p.render_eq, fun inside => ?_⟩
      -- the word has two spaces, of which only one is left
      have spaces := inside.sublist.count_le ' '
      rw [List.count_append, List.count_eq_zero.2 noSpace] at spaces
      revert spaces
      decide
    have flat := legal.flat.1
    have first : trim ((pieces '&' (stripGenerics (join " & ".toList
        (p.uppers.map JavaType.render)))).headD []) = b.erased := by
      have noMark : '&' ∉ b.erased := fun mem => absurd (flat.chars '&' mem) (by decide)
      rw [uppers]
      cases more with
      | nil =>
        rw [List.map_singleton, join_singleton, stripGenerics_render legal, pieces_of_notMem noMark]
        exact flat.trimmed.trim_eq
      | cons c more =>
        have rest : stripGenerics (" & ".toList ++ join " & ".toList ((c :: more).map JavaType.render)) =
            ' ' :: '&' :: stripGenerics (' ' :: join " & ".toList ((c :: more).map JavaType.render)) := by
          simp [stripGenerics, dropArguments, spellArrays_cons]
        have both : '&' ∉ b.erased ++ [' '] := by simp [noMark]
        rw [List.map_cons, List.map_cons, join_cons_cons, List.append_assoc, stripGenerics_append legal,
          ← List.map_cons, rest, List.append_cons, pieces_append_cons both]
        exact trim_append_space flat.trimmed
    have named : trim p.name = p.name := h.name.qualified.flat.trimmed.trim_eq
    exact ⟨b, more, rfl, by simp only [Erasure.binding, cut, named, first]⟩

/-- Type parameters bind what each of them binds. -/
theorem Erasure.bindingsOf_render {ps : List TypeParameter} (h : ∀ p ∈ ps, p.Named) :
    Erasure.bindingsOf (renderParameters ps) = ps.map fun p => Erasure.binding p.render := by
  have items : items brackets (join [','] (ps.map TypeParameter.render)) =
      .ok (ps.map TypeParameter.render) := by
    refine items_join fun t mem => ?_
    obtain ⟨p, inList, rfl⟩ := List.mem_map.1 mem
    have legal := h p inList
    obtain ⟨e, renders⟩ := renders_parameter legal.name legal.uppers
    refine ⟨?_, ?_, renders.clear⟩
    · rw [TypeParameter.render_eq]
      simp [legal.name.filled]
    · rcases List.eq_nil_or_concat' p.uppers with none | ⟨front, b, last⟩
      · exact absurd none p.uppers_ne_nil
      · have upper := legal.uppers b (by simp [last])
        obtain ⟨before, ends⟩ := exists_join_concat " & ".toList (front.map JavaType.render) b.render
        have shape : p.render = p.name ++ (" extends ".toList ++ before) ++ b.render := by
          rw [TypeParameter.render_eq, last, List.map_append, List.map_singleton, ends]
          simp
        rw [shape]
        exact legal.name.qualified.flat.trimmed.around legal.name.filled upper.renders.trimmed
          (render_ne_nil upper) _
  have trimmed : trim (renderParameters ps) = renderParameters ps := by
    refine Trimmed.trim_eq ⟨fun c mem => ?_, fun c mem => ?_⟩
    · obtain rfl : '<' = c := by simpa [renderParameters] using mem
      decide
    · rw [renderParameters, List.getLast?_concat] at mem
      obtain rfl : '>' = c := by simpa using mem
      decide
  have cut : (afterLead? ['<'] (trim (renderParameters ps))).bind (beforeTail? ['>']) =
      some (join [','] (ps.map TypeParameter.render)) := by
    have lead : afterLead? ['<'] (renderParameters ps) = some (join [','] (ps.map TypeParameter.render) ++ ['>']) :=
      afterLead?_append ['<'] _
    rw [trimmed, lead, Option.bind_some, beforeTail?_append]
  simp only [Erasure.bindingsOf, cut, items, List.map_map]
  rfl

/-- Legal type parameters bring sound bindings into scope. -/
theorem Erasure.Sound.nest {scope : Erasure} (sound : scope.Sound) {ps : List TypeParameter}
    (h : ∀ p ∈ ps, p.Legal) : (scope.nest (some (renderParameters ps))).Sound := by
  intro entry mem
  simp only [Erasure.nest, bindingsOf_render fun p inList => (h p inList).named, List.mem_append,
    List.mem_reverse, List.mem_map] at mem
  rcases mem with ⟨p, inList, rfl⟩ | mem
  · obtain ⟨b, more, uppers, bound⟩ := binding_render (h p inList).named
    obtain ⟨legal, word⟩ := (h p inList).uppers b (by simp [uppers])
    rw [bound]
    exact ⟨legal.flat.1, word⟩
  · exact sound entry mem

end ApiSurface
