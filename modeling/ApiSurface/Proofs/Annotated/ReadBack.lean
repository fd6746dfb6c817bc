import ApiSurface.Proofs.Annotated.Shape

/-!
Annotations written and read. Main statement: an annotation all of whose parts have the shape that a line
gives back is read back from what is printed (`takeUse_printUse`, `ofLine_printUse`). The depth that the
reader allows is enough, because an annotation takes two calls for each character at most.
-/

namespace ApiSurface.Annotated

open ApiSurface.Text

mutual

/-- A value that a line gives back. -/
def SoundValue : ElementValue → Prop
  | .literal text => SoundLiteral text.toList
  | .string _ => True
  | .array values => SoundValues values
  | .nested use => SoundUse use

/-- Values that a line gives back. -/
def SoundValues : List ElementValue → Prop
  | [] => True
  | v :: more => SoundValue v ∧ SoundValues more

/-- An annotation that a line gives back. -/
def SoundUse : AnnotationOf ElementValue → Prop
  | ⟨_, name, elements, place⟩ => SoundName name.toList ∧ SoundPlace place ∧ SoundElements elements

/-- Elements that a line gives back. -/
def SoundElements : List (ElementOf ElementValue) → Prop
  | [] => True
  | e :: more => SoundElement e ∧ SoundElements more

/-- An element that a line gives back. -/
def SoundElement : ElementOf ElementValue → Prop
  | ⟨type, name, value⟩ =>
    SoundElementType type.toList ∧ SoundElementName name.toList ∧ SoundValue value

end

/-! ### How prints begin -/

theorem SoundLiteral.starts {t : List Char} (sound : SoundLiteral t) :
    ∃ c more, t = c :: more ∧ c ≠ ' ' ∧ c ≠ ']' := by
  cases sound with
  | character closed => exact ⟨_, _, rfl, by decide, by decide⟩
  | @plain c more starts clear ends noUse =>
    have noEnd : c ∉ valueEnds := clear.head_notMem
    exact ⟨c, more, rfl, fun same => starts (by simp [same]), fun same => noEnd (by simp [same, valueEnds])⟩

theorem beginsUse_printUse (use : AnnotationUse) (rest : List Char) :
    beginsUse (printUse use ++ rest) = true := by
  obtain ⟨target, name, elements, place⟩ := use
  cases place with
  | none =>
    have lead : printUse ⟨target, name, elements, none⟩ ++ rest = useLead ++
        (decimal target.toNat ++ ' ' :: (name.toList ++ '(' :: (printElements elements ++ ')' :: rest))) := by
      simp [printUse, printTarget]
    rw [lead, beginsUse, afterLead?_append]
    rfl
  | some p =>
    have lead : ∃ more, printUse ⟨target, name, elements, some p⟩ ++ rest = placedUseLead ++ more := by
      simp [printUse, printTarget]
    obtain ⟨more, lead⟩ := lead
    rw [lead, beginsUse, afterLead?_append]
    simp

theorem printUse_eq_cons (use : AnnotationUse) : ∃ more, printUse use = 'a' :: more := by
  obtain ⟨target, name, elements, place⟩ := use
  cases place <;> exact ⟨_, rfl⟩

theorem length_printUse (target : UInt32) (name : String) (elements : List AnnotationElement)
    (place : Option TypePlace) :
    (printElements elements).length + 2 ≤ (printUse ⟨target, name, elements, place⟩).length := by
  simp only [printUse, List.length_append, List.length_cons, List.length_nil]
  omega

theorem printValue_starts {v : ElementValue} (sound : SoundValue v) :
    ∃ c more, printValue v = c :: more ∧ c ≠ ' ' ∧ c ≠ ']' := by
  cases v with
  | literal text =>
    have sound : SoundLiteral text.toList := sound
    exact sound.starts
  | string text => exact ⟨_, _, rfl, by decide, by decide⟩
  | array values => exact ⟨_, _, rfl, by decide, by decide⟩
  | nested use =>
    obtain ⟨more, starts⟩ := printUse_eq_cons use
    exact ⟨'a', more, starts, by decide, by decide⟩

theorem printValues_starts (v : ElementValue) (others : List ElementValue) (sound : SoundValue v) :
    ∃ c more, printValues (v :: others) = c :: more ∧ c ≠ ' ' ∧ c ≠ ']' := by
  obtain ⟨c, more, starts, noSpace, noEnd⟩ := printValue_starts sound
  cases others with
  | nil => exact ⟨c, more, starts, noSpace, noEnd⟩
  | cons w others =>
    refine ⟨c, more ++ ',' :: ' ' :: printValues (w :: others), ?_, noSpace, noEnd⟩
    simp [printValues, starts]

/-- A text that a mark ends does not end with a blank. -/
theorem ends_of_closer {closer : Char} (solid : isBlank closer = false) (t : List Char) :
    ∀ c ∈ (t ++ [closer]).getLast?, isBlank c = false := by
  intro c mem
  obtain rfl : closer = c := by simpa using mem
  exact solid

theorem SoundLiteral.ends {t : List Char} (sound : SoundLiteral t) : ∀ c ∈ t.getLast?, isBlank c = false := by
  cases sound with
  | character => exact ends_of_closer (by decide) _
  | plain _ _ ends => exact ends

/-- A value ends with no blank. -/
theorem printValue_ends {v : ElementValue} (sound : SoundValue v) :
    ∀ c ∈ (printValue v).getLast?, isBlank c = false := by
  cases v with
  | literal text =>
    have sound : SoundLiteral text.toList := sound
    exact sound.ends
  | string text => exact ends_of_closer (by decide) ('"' :: Literal.escape '"' text.toList)
  | array values => exact ends_of_closer (by decide) ('[' :: printValues values)
  | nested use =>
    obtain ⟨target, name, elements, place⟩ := use
    exact ends_of_closer (by decide) (printTarget target place ++ ' ' :: name.toList ++ '(' :: printElements elements)

/-- Spaces in front of a value do not count. -/
theorem readValue_space (depth : Nat) (cs : List Char) :
    readValue depth (' ' :: cs) = readValue depth cs := by
  cases depth <;> simp only [readValue, dropSpaces_cons_space]

/-- Spaces in front of elements do not count. -/
theorem readElements_space (depth : Nat) (cs : List Char) :
    readElements depth (' ' :: cs) = readElements depth cs := by
  cases depth <;> simp only [readElements, dropSpaces_cons_space]

/-- An element is read back in front of the end of its value. -/
theorem readElements_element {type name : String} {value : ElementValue} {depth : Nat} {c : Char}
    {rest : List Char} (typed : SoundElementType type.toList) (named : SoundElementName name.toList)
    (inner : readValue depth (printValue value ++ c :: rest) = .ok (value, c :: rest)) :
    readElements (depth + 1) (printElement ⟨type, name, value⟩ ++ c :: rest) =
      (match dropSpaces (c :: rest) with
        | ',' :: cs => do
          let (more, cs) ← readElements depth cs
          return (⟨type, name, value⟩ :: more, cs)
        | ')' :: cs => return ([⟨type, name, value⟩], cs)
        | _ => .error .elementsNotSeparated) := by
  have start : printElement ⟨type, name, value⟩ ++ c :: rest =
      type.toList ++ ' ' :: (name.toList ++ '=' :: (printValue value ++ c :: rest)) := by
    simp [printElement]
  obtain ⟨d, more, first, noSpace, noEnd⟩ := typed.starts
  have kept : dropSpaces (type.toList ++ ' ' :: (name.toList ++ '=' :: (printValue value ++ c :: rest))) =
      d :: (more ++ ' ' :: (name.toList ++ '=' :: (printValue value ++ c :: rest))) := by
    rw [first]
    simp [dropSpaces, noSpace]
  have again : d :: (more ++ ' ' :: (name.toList ++ '=' :: (printValue value ++ c :: rest))) =
      type.toList ++ ' ' :: (name.toList ++ '=' :: (printValue value ++ c :: rest)) := by
    rw [first]
    rfl
  rw [start, readElements, kept]
  simp only [noEnd, if_false, again, elementType_print typed, ok_bind, elementName_print named, inner,
    String.ofList_toList]
  all_goals rfl

/-- An array is read when its values are. -/
theorem readValue_array {depth : Nat} {c : Char} {cs rest : List Char} {values : List ElementValue} (noSpace : c ≠ ' ')
    (noEnd : c ≠ ']') (inner : readValues depth (c :: cs) = .ok (values, rest)) :
    readValue (depth + 1) ('[' :: c :: cs) = .ok (.array values, rest) := by
  have kept : dropSpaces (c :: cs) = c :: cs := by simp [dropSpaces, noSpace]
  have start : dropSpaces ('[' :: c :: cs) = '[' :: c :: cs := by simp [dropSpaces]
  rw [readValue, start]
  simp only [if_true, kept]
  split
  · rename_i same
    exact absurd (List.cons.inj same).1 noEnd
  · rw [inner]
    rfl

/-- An annotation in a value is read when it is read alone. -/
theorem readValue_nested {depth : Nat} {cs rest : List Char} {use : AnnotationUse} (begins : beginsUse ('a' :: cs))
    (inner : readUse depth ('a' :: cs) = .ok (use, rest)) :
    readValue (depth + 1) ('a' :: cs) = .ok (.nested use, rest) := by
  have start : dropSpaces ('a' :: cs) = 'a' :: cs := by simp [dropSpaces]
  rw [readValue, start]
  simp only [show ('a' : Char) ≠ '[' by decide, show ('a' : Char) ≠ '"' by decide,
    show ('a' : Char) ≠ '\'' by decide, if_false, begins, if_true, inner, ok_bind]
  rfl

/-! ### Reading what was printed -/

mutual

/-- A value is read back in front of its end. -/
theorem readValue_printValue : ∀ (v : ElementValue) (depth : Nat) (c : Char) (rest : List Char),
    SoundValue v → 2 * (printValue v).length ≤ depth → c ∈ valueEnds →
      readValue depth (printValue v ++ c :: rest) = .ok (v, c :: rest)
  | .literal text, depth, c, rest, sound, enough, stop => by
    have sound : SoundLiteral text.toList := sound
    have filled : 1 ≤ text.toList.length := by
      obtain ⟨d, more, first, -⟩ := sound.starts
      simp [first]
    simp only [printValue] at enough ⊢
    obtain ⟨depth, rfl⟩ : ∃ d, depth = d + 1 := ⟨depth - 1, by omega⟩
    simpa using literalValue_print sound stop depth
  | .string text, depth, c, rest, _, enough, _ => by
    simp only [printValue, List.length_append, List.length_cons] at enough ⊢
    obtain ⟨depth, rfl⟩ : ∃ d, depth = d + 1 := ⟨depth - 1, by omega⟩
    have start : '"' :: Literal.escape '"' text.toList ++ ['"'] ++ c :: rest =
        '"' :: (Literal.escape '"' text.toList ++ '"' :: c :: rest) := by simp
    rw [start, readValue]
    simp [dropSpaces, stringValue_print]
  | .array [], depth, c, rest, _, enough, _ => by
    simp only [printValue, printValues, List.length_append, List.length_cons, List.length_nil] at enough ⊢
    obtain ⟨depth, rfl⟩ : ∃ d, depth = d + 1 := ⟨depth - 1, by omega⟩
    rw [List.cons_append, List.cons_append, readValue]
    simp [dropSpaces]
  | .array (v :: more), depth, c, rest, sound, enough, _ => by
    have sound : SoundValues (v :: more) := sound
    simp only [printValue, List.length_append, List.length_cons, List.length_nil] at enough ⊢
    obtain ⟨depth, rfl⟩ : ∃ d, depth = d + 1 := ⟨depth - 1, by omega⟩
    have inner := readValues_printValues (v :: more) depth (c :: rest) (by simp) sound (by omega)
    obtain ⟨d, tail, starts, noSpace, noEnd⟩ := printValues_starts v more sound.1
    rw [starts] at inner ⊢
    simpa using readValue_array noSpace noEnd inner
  | .nested use, depth, c, rest, sound, enough, _ => by
    have sound : SoundUse use := sound
    obtain ⟨tail, starts⟩ := printUse_eq_cons use
    simp only [printValue] at enough ⊢
    have filled : 1 ≤ (printUse use).length := by
      rw [starts]
      simp
    obtain ⟨depth, rfl⟩ : ∃ d, depth = d + 1 := ⟨depth - 1, by omega⟩
    have inner := readUse_printUse use depth (c :: rest) sound (by omega)
    have begins := beginsUse_printUse use (c :: rest)
    rw [starts] at inner begins ⊢
    exact readValue_nested begins inner

/-- Values are read back with the bracket that closes them. -/
theorem readValues_printValues : ∀ (vs : List ElementValue) (depth : Nat) (rest : List Char), vs ≠ [] →
    SoundValues vs → 2 * (printValues vs).length + 1 ≤ depth →
      readValues depth (printValues vs ++ ']' :: rest) = .ok (vs, rest)
  | [], _, _, filled, _, _ => absurd rfl filled
  | [v], depth, rest, _, ⟨sound, _⟩, enough => by
    simp only [printValues] at enough ⊢
    obtain ⟨depth, rfl⟩ : ∃ d, depth = d + 1 := ⟨depth - 1, by omega⟩
    have first := readValue_printValue v depth ']' rest sound (by omega) (by decide)
    simp [readValues, first, dropSpaces]
  | v :: w :: more, depth, rest, _, ⟨sound, sounds⟩, enough => by
    simp only [printValues, List.length_append, List.length_cons] at enough ⊢
    obtain ⟨depth, rfl⟩ : ∃ d, depth = d + 1 := ⟨depth - 1, by omega⟩
    have first := readValue_printValue v depth ',' (' ' :: (printValues (w :: more) ++ ']' :: rest)) sound
      (by omega) (by decide)
    have later := readValues_printValues (w :: more) depth rest (by simp) sounds (by omega)
    have skip : readValues depth (' ' :: (printValues (w :: more) ++ ']' :: rest)) =
        readValues depth (printValues (w :: more) ++ ']' :: rest) := by
      cases depth <;> simp only [readValues, readValue_space]
    have start : printValue v ++ ',' :: ' ' :: printValues (w :: more) ++ ']' :: rest =
        printValue v ++ ',' :: ' ' :: (printValues (w :: more) ++ ']' :: rest) := by simp
    rw [start, readValues, first]
    simp [dropSpaces, skip, later]

/-- An annotation is read back in front of any rest. -/
theorem readUse_printUse : ∀ (use : AnnotationUse) (depth : Nat) (rest : List Char),
    SoundUse use → 2 * (printUse use).length ≤ depth + 1 →
      readUse depth (printUse use ++ rest) = .ok (use, rest)
  | ⟨target, name, elements, place⟩, depth, rest, ⟨named, placed, sound⟩, enough => by
    have shorter := length_printUse target name elements place
    obtain ⟨depth, rfl⟩ : ∃ d, depth = d + 1 := ⟨depth - 1, by omega⟩
    have inner := readElements_printElements elements depth rest sound (by omega)
    have start : printUse ⟨target, name, elements, place⟩ ++ rest =
        printTarget target place ++ ' ' :: (name.toList ++ '(' :: (printElements elements ++ ')' :: rest)) := by
      simp [printUse]
    rw [start, readUse, target_print placed]
    simp only [ok_bind, name_print named, inner, String.ofList_toList]
    rfl

/-- Elements are read back with the parenthesis that closes them. -/
theorem readElements_printElements : ∀ (es : List (ElementOf ElementValue)) (depth : Nat) (rest : List Char),
    SoundElements es → 2 * (printElements es).length + 1 ≤ depth →
      readElements depth (printElements es ++ ')' :: rest) = .ok (es, rest)
  | [], depth, rest, _, enough => by
    obtain ⟨depth, rfl⟩ : ∃ d, depth = d + 1 := ⟨depth - 1, by omega⟩
    simp [readElements, printElements, dropSpaces]
  | [⟨type, name, value⟩], depth, rest, ⟨⟨typed, named, sound⟩, _⟩, enough => by
    simp only [printElements, printElement, List.length_append, List.length_cons] at enough
    obtain ⟨depth, rfl⟩ : ∃ d, depth = d + 1 := ⟨depth - 1, by omega⟩
    have inner := readValue_printValue value depth ')' rest sound (by omega) (by decide)
    rw [printElements, readElements_element typed named inner]
    simp [dropSpaces]
  | ⟨type, name, value⟩ :: f :: more, depth, rest, ⟨⟨typed, named, sound⟩, sounds⟩, enough => by
    simp only [printElements, printElement, List.length_append, List.length_cons] at enough
    obtain ⟨depth, rfl⟩ : ∃ d, depth = d + 1 := ⟨depth - 1, by omega⟩
    have inner := readValue_printValue value depth ',' (' ' :: (printElements (f :: more) ++ ')' :: rest)) sound
      (by omega) (by decide)
    have later := readElements_printElements (f :: more) depth rest sounds (by omega)
    have start : printElements (⟨type, name, value⟩ :: f :: more) ++ ')' :: rest =
        printElement ⟨type, name, value⟩ ++ ',' :: ' ' :: (printElements (f :: more) ++ ')' :: rest) := by
      simp [printElements]
    rw [start, readElements_element typed named inner]
    simp [dropSpaces, readElements_space, later]

end

/-- An annotation is taken off again in front of any rest. -/
theorem takeUse_printUse {use : AnnotationUse} (sound : SoundUse use) (rest : List Char) :
    takeUse (printUse use ++ rest) = .ok (use, rest) := by
  refine readUse_printUse use _ rest sound ?_
  rw [List.length_append]
  omega

/-- An annotation is read back from its line. -/
theorem ofLine_printUse {use : AnnotationUse} (sound : SoundUse use) : ofLine (printUse use) = .ok use := by
  have taken := takeUse_printUse sound []
  rw [List.append_nil] at taken
  simp [ofLine, taken, allBlank]

end ApiSurface.Annotated
