import ApiSurface.Proofs.Annotated.ReadBack

/-!
What the reader of annotations accepts. Main statement: an annotation that was read has the shape that its
own line gives back, and its line is one line if the text that was read was (`of_ofLine`). So an annotation
is read back from its line exactly when it has that shape (`ofLine_printUse_iff`).
-/

namespace ApiSurface.Annotated

open ApiSurface.Text

/-- What was read from a text up to a rest: it has the shape that its print gives back, and the print
stays on one line if the text did. -/
structure Read (sound : Prop) (printed cs rest : List Char) : Prop where
  sound : sound
  suffix : rest <:+ cs
  singleLine : SingleLine cs → SingleLine printed

/-! ### Words and numbers -/

theorem of_word {what : String} {cs w rest : List Char} (h : word what cs = .ok (w, rest)) :
    w ≠ [] ∧ Read (' ' ∉ w) w cs rest := by
  simp only [word] at h
  split at h
  · cases h
  rename_i none
  cases h
  simp only [cutBefore] at none ⊢
  refine ⟨by simpa using none, fun mem => ?_, ?_, fun single => ?_⟩
  · simpa using List.mem_takeWhile_imp mem
  · exact (List.dropWhile_suffix _).trans (dropSpaces_suffix cs)
  · exact single.subset fun c mem => mem_of_mem_dropSpaces ((List.takeWhile_sublist _).subset mem)

theorem of_number {bound : Nat} {what : String} {cs rest : List Char} {n : Nat}
    (h : number bound what cs = .ok (n, rest)) : rest <:+ cs := by
  simp only [number] at h
  split at h
  · cases h
  · rename_i taken
    split at h
    · cases h
      exact (of_word taken).2.suffix
    · cases h

theorem of_index {what : String} {cs rest : List Char} {i : Option UInt16}
    (h : index what cs = .ok (i, rest)) : rest <:+ cs := by
  simp only [index] at h
  split at h
  · cases h
  · rename_i taken
    split at h
    · cases h
      exact (of_word taken).2.suffix
    · split at h
      · cases h
        exact (of_word taken).2.suffix
      · cases h

theorem of_place {cs rest : List Char} {p : TypePlace} (h : place cs = .ok (p, rest)) :
    Read (SoundPlace (some p)) p.path.toList cs rest := by
  simp only [place, bind_eq_ok_iff] at h
  obtain ⟨⟨targetType, cs1⟩, first, ⟨typeIndex, cs2⟩, second, ⟨boundIndex, cs3⟩, third,
    ⟨parameterIndex, cs4⟩, fourth, ⟨path, cs5⟩, fifth, h⟩ := h
  cases h
  obtain ⟨filled, free, suffix, single⟩ := of_word fifth
  have behind : cs4 <:+ cs :=
    (((of_index fourth).trans (of_index third)).trans (of_index second)).trans (of_number first)
  by_cases dash : path = ['-']
  · refine ⟨fun p mem => ?_, suffix.trans behind, fun _ => by simp [dash]⟩
    obtain rfl := Option.some_inj.1 mem
    simp [dash]
  · refine ⟨fun p mem => ?_, suffix.trans behind, fun whole => ?_⟩
    · obtain rfl := Option.some_inj.1 mem
      simp only [dash, if_false, String.toList_ofList]
      refine ⟨free, fun same => dash ?_⟩
      rw [← String.toList_ofList (l := path), same]
      rfl
    · simp only [dash, if_false, String.toList_ofList]
      exact single (whole.of_part behind.isInfix)

theorem singleLine_decimal (n : Nat) : SingleLine (decimal n) := by
  intro c mem
  have digit := isDigit_of_mem_decimal mem
  constructor <;> rintro rfl <;> revert digit <;> decide

theorem singleLine_printIndex (i : Option UInt16) : SingleLine (printIndex i) := by
  cases i with
  | none => simp [printIndex]
  | some i => exact singleLine_decimal _

theorem singleLine_printTarget (n : UInt32) {place : Option TypePlace}
    (h : ∀ p ∈ place, SingleLine p.path.toList) : SingleLine (printTarget n place) := by
  have leads : SingleLine useLead ∧ SingleLine placedUseLead := by decide
  cases place with
  | none => simpa [printTarget, leads.1] using singleLine_decimal n.toNat
  | some p =>
    have path : SingleLine (if p.path = "" then ['-'] else p.path.toList) := by
      split
      · simp
      · exact h p rfl
    simp [printTarget, leads.2, singleLine_decimal, singleLine_printIndex, path]

theorem of_target {cs rest : List Char} {n : UInt32} {place : Option TypePlace}
    (h : target cs = .ok ((n, place), rest)) : Read (SoundPlace place) (printTarget n place) cs rest := by
  simp only [target] at h
  split at h
  · rename_i behind lead
    obtain rfl := afterLead?_eq_some_iff.1 lead
    obtain ⟨⟨number, cs1⟩, first, h⟩ := bind_eq_ok_iff.1 h
    obtain ⟨⟨p, cs2⟩, second, h⟩ := bind_eq_ok_iff.1 h
    cases h
    have placed := of_place second
    have start : ' ' :: behind <:+ placedUseLead ++ behind := ⟨"annoEx".toList, rfl⟩
    have inside : cs1 <:+ placedUseLead ++ behind := (of_number first).trans start
    refine ⟨placed.sound, placed.suffix.trans inside, fun single => singleLine_printTarget _ fun q mem => ?_⟩
    obtain rfl := Option.some_inj.1 mem
    exact placed.singleLine (single.of_part inside.isInfix)
  · split at h
    · rename_i behind lead
      obtain rfl := afterLead?_eq_some_iff.1 lead
      obtain ⟨⟨number, cs1⟩, first, h⟩ := bind_eq_ok_iff.1 h
      cases h
      have start : ' ' :: behind <:+ useLead ++ behind := ⟨"anno".toList, rfl⟩
      exact ⟨by simp [SoundPlace], (of_number first).trans start,
        fun _ => singleLine_printTarget _ (by simp)⟩
    · cases h

/-! ### Names and types -/

/-- A trimmed part of a text in front of a mark. -/
theorem of_cut {mark : Char} {cs before after : List Char} (h : cutAt? [mark] cs = some (before, after)) :
    mark ∉ trim before ∧ trim before ⊆ cs ∧ after <:+ cs := by
  obtain ⟨rfl, free⟩ := of_cutAt?_singleton h
  refine ⟨fun mem => free (mem_of_mem_trim mem), fun c mem => ?_, ⟨before ++ [mark], by simp⟩⟩
  exact List.mem_append_left _ (mem_of_mem_trim mem)

theorem of_name {cs n rest : List Char} (h : name cs = .ok (n, rest)) : Read (SoundName n) n cs rest := by
  simp only [name] at h
  split at h
  · cases h
  · rename_i cut
    split at h
    · cases h
    · rename_i shape
      cases h
      obtain ⟨free, inside, suffix⟩ := of_cut cut
      simp only [List.isEmpty_iff, not_or] at shape
      refine ⟨⟨shape.1, trimmed_trim _, shape.2, free⟩, suffix.trans (dropSpaces_suffix cs), fun single => ?_⟩
      exact (single.of_part (dropSpaces_suffix cs).isInfix).subset inside

theorem of_dimensions {cs dims rest : List Char} (h : dimensions cs = (dims, rest)) :
    dimensions dims = (dims, []) ∧ cs = dims ++ rest := by
  have again := dimensions_replay h [] (by simp)
  rw [List.append_nil] at again
  refine ⟨again, ?_⟩
  fun_induction dimensions cs generalizing dims with
  | case1 cs more rest' inner ih =>
    cases h
    have shorter := dimensions_replay inner [] (by simp)
    rw [List.append_nil] at shorter
    simp [ih inner shorter]
  | case2 =>
    cases h
    rfl

theorem of_elementType {c : Char} {cs t rest : List Char} (noSpace : c ≠ ' ') (noEnd : c ≠ ')')
    (h : elementType (c :: cs) = .ok (t, rest)) : Read (SoundElementType t) t (c :: cs) rest := by
  simp only [elementType] at h
  split at h
  · rename_i behind lead
    have whole := afterLead?_eq_some_iff.1 lead
    split at h
    · cases h
    · rename_i arguments after closed
      cases h
      obtain ⟨square, cut⟩ := of_dimensions (rfl : dimensions after = (_, _))
      have split := throughClose_append closed
      have closes := throughClose_replay closed []
      rw [List.append_nil] at closes
      have parts : c :: cs = classTypeLead ++ '<' :: arguments ++ (dimensions after).1 ++ (dimensions after).2 := by
        rw [whole, ← split, List.append_assoc _ _ (dimensions after).2, ← cut]
        simp
      refine ⟨.ofClass closes square, ?_, fun single => ?_⟩
      · rw [parts]
        exact List.suffix_append _ _
      · rw [parts] at single
        exact (SingleLine.append_iff.1 single).1
  · rename_i noLead
    split at h
    · cases h
    · rename_i cut
      cases h
      obtain ⟨whole, free⟩ := of_cutAt?_singleton cut
      have starts : ∃ more, t = c :: more := by
        cases t with
        | nil => exact absurd (List.cons.inj whole).1 noSpace
        | cons d more => exact ⟨more, by rw [(List.cons.inj whole).1]⟩
      obtain ⟨more, rfl⟩ := starts
      refine ⟨.plain (by simp) free (by simpa using noEnd) fun lead => ?_, ?_, fun single => ?_⟩
      · apply isPrefixOf?_eq_none_iff.1 noLead
        rw [whole]
        exact lead.trans (List.prefix_append _ _)
      · rw [whole]
        exact List.suffix_append _ _
      · rw [whole] at single
        exact (SingleLine.append_iff.1 single).1

theorem of_elementName {type cs n rest : List Char} (h : elementName type cs = .ok (n, rest)) :
    Read (SoundElementName n) n cs rest := by
  simp only [elementName] at h
  split at h
  · cases h
  · rename_i cut
    split at h
    · cases h
    · rename_i shape
      cases h
      obtain ⟨free, inside, suffix⟩ := of_cut cut
      simp only [List.isEmpty_iff, not_or] at shape
      exact ⟨⟨shape.1, trimmed_trim _, shape.2, free⟩, suffix, fun single => single.subset inside⟩

/-! ### Values that hold no others -/

theorem of_literalValue {c : Char} {cs rest : List Char} {v : ElementValue}
    (starts : c ∉ [' ', '[', '"', '\'']) (noUse : beginsUse (c :: cs) = false)
    (h : literalValue (c :: cs) = .ok (v, rest)) : Read (SoundValue v) (printValue v) (c :: cs) rest := by
  simp only [literalValue] at h
  split at h
  · cases h
  · rename_i text after scanned
    split at h
    · cases h
    · rename_i filled
      cases h
      obtain ⟨whole, clear, -⟩ := scanTo_eq_ok_iff.1 scanned
      obtain ⟨tail, cut, blanks⟩ := exists_eq_trimEnd_append text
      have parts : c :: cs = trimEnd text ++ (tail ++ rest) := by
        rw [whole]
        conv => lhs; rw [cut]
        rw [List.append_assoc]
      have first : ∃ more, trimEnd text = c :: more := by
        cases front : trimEnd text with
        | nil => simp [front] at filled
        | cons d more =>
          rw [front] at parts
          exact ⟨more, by rw [(List.cons.inj parts).1]⟩
      obtain ⟨more, front⟩ := first
      have ends := getLast?_trimEnd (t := text)
      rw [cut] at clear
      have kept : Clear brackets valueEnds (trimEnd text) :=
        clear.dropRight fun d mem => notMem_marks_of_isBlank (blanks d mem)
      rw [front] at ends kept parts ⊢
      have plain : beginsUse (c :: more) = false := by
        simp only [beginsUse, Bool.or_eq_false_iff, Option.isSome_eq_false_iff,
          Option.isNone_iff_eq_none, afterLead?, isPrefixOf?_eq_none_iff] at noUse ⊢
        rw [parts] at noUse
        exact ⟨fun lead => noUse.1 (lead.trans (List.prefix_append _ _)),
          fun lead => noUse.2 (lead.trans (List.prefix_append _ _))⟩
      refine ⟨?_, ?_, fun single => ?_⟩
      · have sound := SoundLiteral.plain starts kept ends plain
        simpa [SoundValue] using sound
      · rw [whole]
        exact List.suffix_append _ _
      · rw [parts, SingleLine.append_iff] at single
        simpa only [printValue, String.toList_ofList] using single.1

theorem of_stringValue {cs rest : List Char} {v : ElementValue} (h : stringValue cs = .ok (v, rest)) :
    Read (SoundValue v) (printValue v) cs rest := by
  simp only [stringValue] at h
  split at h
  · cases h
  · rename_i inside after closed
    split at h
    · cases h
    · cases h
      refine ⟨trivial, ?_, fun _ => ?_⟩
      · rw [← throughQuote?_append closed]
        exact ⟨inside ++ ['"'], by simp⟩
      · simp [printValue, singleLine_escape]

theorem of_characterValue {cs rest : List Char} {v : ElementValue}
    (h : characterValue cs = .ok (v, rest)) : Read (SoundValue v) (printValue v) cs rest := by
  simp only [characterValue] at h
  split at h
  · cases h
  · rename_i inside after closed
    cases h
    have whole := throughQuote?_append closed
    refine ⟨?_, ?_, fun single => ?_⟩
    · have sound := SoundLiteral.character (throughQuote?_replay closed [])
      simpa [SoundValue] using sound
    · rw [← whole]
      exact ⟨inside ++ ['\''], by simp⟩
    · rw [← whole, SingleLine.append_iff] at single
      simp [printValue, single.1]

/-! ### Annotations -/

theorem singleLine_printElements_cons {e : AnnotationElement} {es : List AnnotationElement}
    (first : SingleLine (printElement e)) (others : SingleLine (printElements es)) :
    SingleLine (printElements (e :: es)) := by
  cases es with
  | nil => simpa [printElements] using first
  | cons f es => simp [printElements, first, others]

theorem singleLine_printValues_cons {v : ElementValue} {vs : List ElementValue}
    (first : SingleLine (printValue v)) (others : SingleLine (printValues vs)) :
    SingleLine (printValues (v :: vs)) := by
  cases vs with
  | nil => simpa [printValues] using first
  | cons w vs => simp [printValues, first, others]

/-- What the four readers accept at a depth. -/
structure Accepts (depth : Nat) : Prop where
  use : ∀ {cs u rest}, readUse depth cs = .ok (u, rest) → Read (SoundUse u) (printUse u) cs rest
  elements : ∀ {cs es rest}, readElements depth cs = .ok (es, rest) →
    Read (SoundElements es) (printElements es) cs rest
  value : ∀ {cs v rest}, readValue depth cs = .ok (v, rest) → Read (SoundValue v) (printValue v) cs rest
  values : ∀ {cs vs rest}, readValues depth cs = .ok (vs, rest) →
    Read (SoundValues vs) (printValues vs) cs rest

namespace Accepts

variable {depth : Nat}

theorem succ_use (h : Accepts depth) {cs rest : List Char} {u : AnnotationUse}
    (read : readUse (depth + 1) cs = .ok (u, rest)) : Read (SoundUse u) (printUse u) cs rest := by
  rw [readUse] at read
  obtain ⟨⟨⟨n, place⟩, cs1⟩, first, read⟩ := bind_eq_ok_iff.1 read
  obtain ⟨⟨name, cs2⟩, second, read⟩ := bind_eq_ok_iff.1 read
  obtain ⟨⟨elements, cs3⟩, third, read⟩ := bind_eq_ok_iff.1 read
  cases read
  have targets := of_target first
  have names := of_name second
  have inner := h.elements third
  have behind : cs2 <:+ cs := names.suffix.trans targets.suffix
  refine ⟨⟨?_, targets.sound, inner.sound⟩, inner.suffix.trans behind, fun single => ?_⟩
  · rw [String.toList_ofList]
    exact names.sound
  · have printed := targets.singleLine single
    have named := names.singleLine (single.of_part targets.suffix.isInfix)
    have listed := inner.singleLine (single.of_part behind.isInfix)
    simp [printUse, printed, named, listed]

theorem succ_elements (h : Accepts depth) {cs rest : List Char} {es : List AnnotationElement}
    (read : readElements (depth + 1) cs = .ok (es, rest)) :
    Read (SoundElements es) (printElements es) cs rest := by
  rw [readElements] at read
  split at read
  · cases read
  · rename_i c more start
    have suffix : c :: more <:+ cs := start ▸ dropSpaces_suffix cs
    split at read
    · cases read
      exact ⟨trivial, (List.suffix_cons c rest).trans suffix, fun _ => by simp [printElements]⟩
    · rename_i noEnd
      obtain ⟨⟨type, cs1⟩, first, read⟩ := bind_eq_ok_iff.1 read
      obtain ⟨⟨name, cs2⟩, second, read⟩ := bind_eq_ok_iff.1 read
      obtain ⟨⟨value, cs3⟩, third, read⟩ := bind_eq_ok_iff.1 read
      have noSpace : c ≠ ' ' := head?_dropSpaces cs c (by simp [start])
      have types := of_elementType noSpace noEnd first
      have names := of_elementName second
      have inner := h.value third
      have behind : cs1 <:+ cs := types.suffix.trans suffix
      have behind2 : cs2 <:+ cs := names.suffix.trans behind
      have behind3 : cs3 <:+ cs := inner.suffix.trans behind2
      have sound : SoundElement ⟨String.ofList type, String.ofList name, value⟩ := by
        refine ⟨?_, ?_, inner.sound⟩
        · rw [String.toList_ofList]
          exact types.sound
        · rw [String.toList_ofList]
          exact names.sound
      have single (whole : SingleLine cs) :
          SingleLine (printElement ⟨String.ofList type, String.ofList name, value⟩) := by
        have typed := types.singleLine (whole.of_part suffix.isInfix)
        have named := names.singleLine (whole.of_part behind.isInfix)
        have valued := inner.singleLine (whole.of_part behind2.isInfix)
        simp [printElement, typed, named, valued]
      dsimp only at read
      split at read
      · rename_i cs4 next
        obtain ⟨⟨others, cs5⟩, fourth, read⟩ := bind_eq_ok_iff.1 read
        cases read
        have later := h.elements fourth
        have behind4 : cs4 <:+ cs :=
          ((List.suffix_cons ',' cs4).trans (next ▸ dropSpaces_suffix cs3)).trans behind3
        exact ⟨⟨sound, later.sound⟩, later.suffix.trans behind4, fun whole =>
          singleLine_printElements_cons (single whole) (later.singleLine (whole.of_part behind4.isInfix))⟩
      · rename_i cs4 next
        cases read
        have behind4 : rest <:+ cs :=
          ((List.suffix_cons ')' rest).trans (next ▸ dropSpaces_suffix cs3)).trans behind3
        exact ⟨⟨sound, trivial⟩, behind4, fun whole => by simpa [printElements] using single whole⟩
      · cases read

theorem succ_value (h : Accepts depth) {cs rest : List Char} {v : ElementValue}
    (read : readValue (depth + 1) cs = .ok (v, rest)) : Read (SoundValue v) (printValue v) cs rest := by
  rw [readValue] at read
  split at read
  · cases read
  · rename_i c more start
    have suffix : c :: more <:+ cs := start ▸ dropSpaces_suffix cs
    have inside : more <:+ cs := (List.suffix_cons c more).trans suffix
    have extend {sound : Prop} {printed text : List Char} (part : text <:+ cs)
        (found : Read sound printed text rest) : Read sound printed cs rest :=
      ⟨found.sound, found.suffix.trans part, fun whole => found.singleLine (whole.of_part part.isInfix)⟩
    split_ifs at read with open1 quote1 quote2 use
    · have part : dropSpaces more <:+ cs := (dropSpaces_suffix more).trans inside
      generalize dropSpaces more = tail at read part
      split at read
      · cases read
        have behind : rest <:+ cs := (List.suffix_cons ']' rest).trans part
        exact ⟨trivial, behind, fun _ => by simp [printValue, printValues]⟩
      · obtain ⟨⟨values, cs1⟩, first, read⟩ := bind_eq_ok_iff.1 read
        cases read
        have inner := extend part (h.values first)
        exact ⟨inner.sound, inner.suffix, fun whole => by simp [printValue, inner.singleLine whole]⟩
    · exact extend inside (of_stringValue read)
    · exact extend inside (of_characterValue read)
    · obtain ⟨⟨u, cs1⟩, first, read⟩ := bind_eq_ok_iff.1 read
      cases read
      have inner := extend suffix (h.use first)
      exact ⟨inner.sound, inner.suffix, fun whole => by simpa [printValue] using inner.singleLine whole⟩
    · have noSpace : c ≠ ' ' := head?_dropSpaces cs c (by simp [start])
      exact extend suffix (of_literalValue (by simp [noSpace, open1, quote1, quote2]) (by simpa using use) read)

theorem succ_values (h : Accepts depth) {cs rest : List Char} {vs : List ElementValue}
    (read : readValues (depth + 1) cs = .ok (vs, rest)) :
    Read (SoundValues vs) (printValues vs) cs rest := by
  rw [readValues] at read
  obtain ⟨⟨v, cs1⟩, first, read⟩ := bind_eq_ok_iff.1 read
  have inner := h.value first
  dsimp only at read
  split at read
  · rename_i cs2 next
    obtain ⟨⟨others, cs3⟩, second, read⟩ := bind_eq_ok_iff.1 read
    cases read
    have later := h.values second
    have behind : cs2 <:+ cs :=
      ((List.suffix_cons ',' cs2).trans (next ▸ dropSpaces_suffix cs1)).trans inner.suffix
    exact ⟨⟨inner.sound, later.sound⟩, later.suffix.trans behind, fun whole =>
      singleLine_printValues_cons (inner.singleLine whole) (later.singleLine (whole.of_part behind.isInfix))⟩
  · rename_i cs2 next
    cases read
    have behind : rest <:+ cs :=
      ((List.suffix_cons ']' rest).trans (next ▸ dropSpaces_suffix cs1)).trans inner.suffix
    exact ⟨⟨inner.sound, trivial⟩, behind, fun whole => by simpa [printValues] using inner.singleLine whole⟩
  · cases read

end Accepts

/-- The readers accept nothing else, at any depth. -/
theorem accepts (depth : Nat) : Accepts depth := by
  induction depth with
  | zero => constructor <;> intro cs x rest read <;> cases read
  | succ depth ih => exact ⟨ih.succ_use, ih.succ_elements, ih.succ_value, ih.succ_values⟩

/-- An annotation that was read from a line has the shape that its own line gives back. -/
theorem of_ofLine {cs : List Char} {use : AnnotationUse} (h : ofLine cs = .ok use) :
    SoundUse use ∧ (SingleLine cs → SingleLine (printUse use)) := by
  simp only [ofLine] at h
  split at h
  · cases h
  · rename_i found
    split at h
    · cases h
      have read := (accepts _).use found
      exact ⟨read.sound, read.singleLine⟩
    · cases h

/-- An annotation is read back from its line exactly when it has the shape that lines give back. -/
theorem ofLine_printUse_iff {use : AnnotationUse} : ofLine (printUse use) = .ok use ↔ SoundUse use :=
  ⟨fun h => (of_ofLine h).1, ofLine_printUse⟩

end ApiSurface.Annotated
