import ApiSurface.Proofs.Legacy.Source

/-!
Types as descriptors. Pairs of brackets behind a type become brackets in front of it, and the reader takes
them back from any type that begins with one. Main statements: a type that begins with no bracket is read back
from its descriptor (`arrayToSource_arrayToDescriptor`), and what is kept of arguments without generics is a
list of such types (`exists_arguments_erase`).
-/

namespace ApiSurface

open ApiSurface.Text ApiSurface.Line

namespace Legacy

/-! ### Dimensions -/

/-- The pairs that are taken off the end of a type stand there. -/
theorem reverse_eq_of_dropDimensions {r base : List Char} {n : Nat} (h : dropDimensions r = (base, n)) :
    r.reverse = base.reverse ++ (List.replicate n ['[', ']']).flatten := by
  fun_induction dropDimensions r generalizing base n with
  | case1 cs base' m dropped ih =>
    obtain ⟨rfl, rfl⟩ := Prod.mk.inj h
    rw [List.replicate_succ', List.flatten_append, ← List.append_assoc, ← ih dropped]
    simp
  | case2 cs =>
    obtain ⟨rfl, rfl⟩ := Prod.mk.inj h
    simp

/-- A type is its own descriptor, or an element with pairs of brackets, which go to the front. -/
theorem arrayToDescriptor_cases (t : List Char) :
    arrayToDescriptor t = t ∨ ∃ element n, n ≠ 0 ∧ t = element ++ (List.replicate n ['[', ']']).flatten ∧
      arrayToDescriptor t = List.replicate n '[' ++ elementToDescriptor element := by
  unfold arrayToDescriptor
  cases dropped : dropDimensions t.reverse with
  | mk base n =>
    by_cases none : n = 0
    · exact .inl (if_pos none)
    · refine .inr ⟨base.reverse, n, none, ?_, if_neg none⟩
      rw [← reverse_eq_of_dropDimensions dropped, List.reverse_reverse]

/-! ### Elements -/

/-- The descriptor of an element begins with its letter or with that of classes. -/
theorem exists_elementToDescriptor (element : List Char) :
    (∃ p : Primitive, elementToDescriptor element = [p.letter] ∧ p.name = element) ∨
      elementToDescriptor element = 'L' :: element ++ [';'] := by
  unfold elementToDescriptor
  split
  · rename_i p found
    obtain ⟨named, -⟩ := Option.filter_eq_some_iff.1 found
    exact .inl ⟨p, rfl, by simpa using List.find?_some named⟩
  · exact .inr rfl

theorem elementOfDescriptor?_elementToDescriptor (element : List Char) :
    elementOfDescriptor? (elementToDescriptor element) = some element := by
  rcases exists_elementToDescriptor element with ⟨p, letter, rfl⟩ | name
  · rw [letter]
    cases p <;> decide
  · have lead : afterLead? ['L'] ('L' :: element ++ [';']) = some (element ++ [';']) :=
      afterLead?_append ['L'] (element ++ [';'])
    have inside : (afterLead? ['L'] ('L' :: element ++ [';'])).bind (beforeTail? [';']) = some element := by
      rw [lead, Option.bind_some, beforeTail?_append]
    rw [name]
    simp only [elementOfDescriptor?, inside]

/-- No descriptor of an element begins with a bracket. -/
theorem head_elementToDescriptor (element : List Char) :
    ∃ c more, elementToDescriptor element = c :: more ∧ c ≠ '[' := by
  rcases exists_elementToDescriptor element with ⟨p, letter, -⟩ | name
  · exact ⟨p.letter, [], letter, by cases p <;> decide⟩
  · exact ⟨'L', element ++ [';'], name, by decide⟩

/-! ### Both ways -/

theorem arrayToSource_eq_self {t : List Char} (starts : ∀ c ∈ t.head?, c ≠ '[') : arrayToSource t = t := by
  cases t with
  | nil => rfl
  | cons c t => simp [arrayToSource, starts c rfl]

/-- An array is read back from its descriptor. -/
theorem arrayToSource_replicate {n : Nat} (filled : n ≠ 0) (element : List Char) :
    arrayToSource (List.replicate n '[' ++ elementToDescriptor element) =
      element ++ (List.replicate n ['[', ']']).flatten := by
  obtain ⟨c, more, shape, other⟩ := head_elementToDescriptor element
  have brackets : (List.replicate n '[' ++ elementToDescriptor element).takeWhile (· == '[') =
      List.replicate n '[' := by
    rw [shape, List.takeWhile_append_of_pos (by simp), List.takeWhile_cons_of_neg (by simpa using other),
      List.append_nil]
  have behind : (List.replicate n '[' ++ elementToDescriptor element).dropWhile (· == '[') =
      elementToDescriptor element := by
    rw [shape, List.dropWhile_append_of_pos (by simp), List.dropWhile_cons_of_neg (by simpa using other)]
  have some : (List.replicate n '[').isEmpty = false := by simpa [List.isEmpty_iff] using filled
  simp only [arrayToSource, brackets, behind, some, elementOfDescriptor?_elementToDescriptor, List.flatMap_replicate]
  rfl

/-- A type that begins with no bracket is read back from its descriptor. -/
theorem arrayToSource_arrayToDescriptor {t : List Char} (starts : ∀ c ∈ t.head?, c ≠ '[') :
    arrayToSource (arrayToDescriptor t) = t := by
  rcases arrayToDescriptor_cases t with same | ⟨element, n, filled, whole, shape⟩
  · rw [same, arrayToSource_eq_self starts]
  · rw [shape, arrayToSource_replicate filled, ← whole]

/-! ### Types on old lines -/

/-- The characters of types on old lines, in either spelling. -/
def IsOldTypeChar (c : Char) : Prop := (isTypeChar c ∧ c ≠ ',') ∨ c = ';'

/-- A type as an old line has it, in either spelling. -/
structure IsOldType (t : List Char) : Prop where
  filled : t ≠ []
  chars : ∀ c ∈ t, IsOldTypeChar c

namespace IsOldType

variable {t : List Char}

/-- A character that belongs to no type. -/
theorem notMem (h : IsOldType t) {c : Char} (other : isTypeChar c = false ∧ c ≠ ';') : c ∉ t := by
  intro mem
  rcases h.chars c mem with ⟨char, -⟩ | same
  · rw [char] at other
    cases other.1
  · exact other.2 same

/-- Square brackets do not count on old lines. -/
theorem clear (h : IsOldType t) : Clear legacyBrackets [' ', ','] t := by
  have still : ∀ d ∈ ['.', '[', ']', ';'], d ∉ [' ', ','] ∧ Nesting.top.step legacyBrackets d = .ok .top := by
    decide
  refine clear_of_still fun c mem => ?_
  rcases h.chars c mem with ⟨char, noComma⟩ | rfl
  · simp only [isTypeChar, Bool.or_eq_true, List.contains_iff_mem] at char
    rcases char with part | other
    · have apart := notMem_of_isNamePart part
      exact ⟨fun stop => apart.2 (List.mem_of_mem_take (i := 2) stop),
        Nesting.step_of_notMem_marks legacyBrackets_subset rfl apart.1⟩
    · simp only [List.mem_cons, List.not_mem_nil, or_false, noComma] at other
      rcases other with rfl | rfl | rfl <;> exact still _ (by decide)
  · exact still _ (by decide)

theorem oldToken (h : IsOldType t) : IsOldToken t := ⟨h.filled, h.clear.of_subset (by decide)⟩

/-- Types are items of lists. -/
theorem item (h : IsOldType t) : IsItem legacyBrackets t := by
  have solid : ∀ c ∈ t, isBlank c = false := by
    intro c mem
    rcases h.chars c mem with ⟨char, -⟩ | rfl
    · exact isBlank_of_isTypeChar char
    · decide
  exact ⟨h.filled, ⟨fun c mem => solid c (List.mem_of_mem_head? mem), fun c mem => solid c (List.mem_of_getLast? mem)⟩,
    h.clear.of_subset (by decide)⟩

theorem singleLine (h : IsOldType t) : SingleLine t := by
  intro c mem
  exact ⟨fun same => h.notMem (c := '\n') (by decide) (same ▸ mem),
    fun same => h.notMem (c := '\r') (by decide) (same ▸ mem)⟩

/-- A type is not taken for a list of type parameters. -/
theorem listsNothing (h : IsOldType t) : listsParameters t = false := by
  cases t with
  | nil => rfl
  | cons c t =>
    have opens : c ≠ '<' := fun same => h.notMem (c := '<') (by decide) (by simp [same])
    simp [listsParameters, List.isPrefixOf, Ne.symm opens]

end IsOldType

/-- A type without arguments that is read back from its descriptor. -/
structure HasDescriptor (t : List Char) : Prop where
  source : IsOldType t
  descriptor : IsOldType (arrayToDescriptor t)
  back : arrayToSource (arrayToDescriptor t) = t

/-- The descriptor of a type has the characters of the type, letters and semicolons. -/
theorem IsOldType.arrayToDescriptor {t : List Char} (h : IsOldType t) : IsOldType (arrayToDescriptor t) := by
  rcases arrayToDescriptor_cases t with same | ⟨element, n, -, whole, shape⟩
  · rwa [same]
  · obtain ⟨c, more, starts, -⟩ := head_elementToDescriptor element
    rw [shape]
    refine ⟨by simp [starts], fun d mem => ?_⟩
    rcases List.mem_append.1 mem with mem | mem
    · rw [(List.mem_replicate.1 mem).2]
      exact .inl (by decide)
    · rcases exists_elementToDescriptor element with ⟨p, letter, -⟩ | name
      · rw [letter, List.mem_singleton] at mem
        subst mem
        exact .inl (by cases p <;> decide)
      · rw [name] at mem
        simp only [List.cons_append, List.mem_cons, List.mem_append, List.not_mem_nil, or_false] at mem
        rcases mem with rfl | inside | rfl
        · exact .inl (by decide)
        · exact h.chars d (whole ▸ List.mem_append_left _ inside)
        · exact .inr rfl

theorem HasDescriptor.of_starts {t : List Char} (h : IsOldType t) (starts : ∀ c ∈ t.head?, c ≠ '[') :
    HasDescriptor t :=
  ⟨h, h.arrayToDescriptor, arrayToSource_arrayToDescriptor starts⟩

theorem HasDescriptor.of_flat {t : List Char} (flat : IsFlat t) : HasDescriptor t :=
  .of_starts ⟨flat.filled, fun c mem => .inl ⟨flat.chars c mem, fun same => flat.noComma (same ▸ mem)⟩⟩ flat.starts

/-- A type whose descriptor is no keyword. -/
theorem notKeyword_arrayToDescriptor {t : List Char} (word : NotKeyword t) : NotKeyword (arrayToDescriptor t) := by
  rcases arrayToDescriptor_cases t with same | ⟨element, n, filled, -, shape⟩
  · rwa [same]
  · have opens : '[' ∈ arrayToDescriptor t := by
      rw [shape]
      exact List.mem_append_left _ (List.mem_replicate.2 ⟨filled, rfl⟩)
    exact notKeyword_of_mem opens (by decide)

/-- The dots of no argument are kept as a pair of brackets, which is read back all the same. -/
theorem hasDescriptor_dimension : HasDescriptor ['[', ']'] := by
  have type : IsOldType ['[', ']'] := by
    refine ⟨by decide, fun c mem => .inl ?_⟩
    have all : ∀ d ∈ ['[', ']'], isTypeChar d ∧ d ≠ ',' := by decide
    exact all c mem
  exact ⟨type, type.arrayToDescriptor, by decide⟩

end Legacy

/-! ### Kept arguments -/

open ApiSurface.Legacy

variable {scope : Erasure}

/-- What is kept of arguments without generics is a list of types that are read back from descriptors. -/
theorem exists_arguments_erase (sound : scope.Sound) {text : List Char} (h : IsArgumentsText text) :
    ∃ us, (∀ u ∈ us, HasDescriptor u) ∧ scope.erase text = join [','] us := by
  have listed {ts : List JavaType} (legal : ∀ t ∈ ts, t.Legal) :
      ∃ us, (∀ u ∈ us, HasDescriptor u) ∧ scope.erase (renderTypes ts) = join [','] us := by
    refine ⟨ts.map fun t => scope.erase t.render, fun u mem => ?_, Erasure.erase_types legal⟩
    obtain ⟨t, inTypes, rfl⟩ := List.mem_map.1 mem
    exact .of_flat (sound.flat_erase (legal t inTypes))
  obtain ⟨ts, legal, rfl | rfl⟩ := h
  · exact listed legal
  · rcases List.eq_nil_or_concat ts with rfl | ⟨us, t, rfl⟩
    · have dots : stripGenerics (renderTypes [] ++ ['.', '.', '.']) = ['[', ']'] := by decide
      refine ⟨[['[', ']']], by simpa using hasDescriptor_dimension, ?_⟩
      rw [Erasure.erase, dots, join_singleton]
      split
      · rfl
      · rfl
    · rw [List.concat_eq_append] at legal ⊢
      have same : scope.erase (renderTypes (us ++ [t]) ++ ['.', '.', '.']) =
          scope.erase (renderTypes (us ++ [.array t])) := by
        unfold Erasure.erase
        rw [stripGenerics_concat_dots legal]
      rw [same]
      refine listed fun u mem => ?_
      rcases List.mem_append.1 mem with mem | mem
      · exact legal u (List.mem_append_left _ mem)
      · obtain rfl := List.mem_singleton.1 mem
        exact legal t (by simp)

end ApiSurface
