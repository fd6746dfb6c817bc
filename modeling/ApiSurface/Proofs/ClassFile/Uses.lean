import ApiSurface.ClassFile.Description
import ApiSurface.Proofs.Literal.Constant
import ApiSurface.Proofs.SignatureFile.WellFormed

/-!
The annotations of class files as lines. Names are names there, and types have no arguments. Main statement:
whatever annotations are described, their lines give them back (`describeUses_printable`,
`describeParameterUses_printable`), and so does the text of a default (`isDefaultText_defaultText`).
-/

namespace ApiSurface

open ApiSurface.Text ApiSurface.Annotated

namespace ClassFile

/-! ### Types without arguments -/

/-- The type of an element or of an annotation: characters of types without arguments. -/
structure IsTypeWord (t : List Char) : Prop where
  filled : t ≠ []
  chars : ∀ c ∈ t, isTypeChar c

instance (t : List Char) : Decidable (IsTypeWord t) :=
  decidable_of_iff (t ≠ [] ∧ ∀ c ∈ t, isTypeChar c) ⟨fun h => ⟨h.1, h.2⟩, fun h => ⟨h.filled, h.chars⟩⟩

namespace IsTypeWord

variable {t : List Char}

theorem notMem (h : IsTypeWord t) {c : Char} (other : isTypeChar c = false) : c ∉ t := by
  intro mem
  rw [h.chars c mem] at other
  cases other

theorem array (h : IsTypeWord t) : IsTypeWord (t ++ ['[', ']']) := by
  have square : ∀ c ∈ ['[', ']'], isTypeChar c := by decide
  exact ⟨by simp, fun c mem => (List.mem_append.1 mem).elim (h.chars c) (square c)⟩

theorem singleLine (h : IsTypeWord t) : SingleLine t := fun c mem =>
  ⟨fun same => h.notMem (c := '\n') (by decide) (same ▸ mem),
    fun same => h.notMem (c := '\r') (by decide) (same ▸ mem)⟩

theorem trimmed (h : IsTypeWord t) : Trimmed t :=
  ⟨fun c mem => isBlank_of_isTypeChar (h.chars c (List.mem_of_mem_head? mem)),
    fun c mem => isBlank_of_isTypeChar (h.chars c (List.mem_of_getLast? mem))⟩

theorem soundName (h : IsTypeWord t) : SoundName t :=
  ⟨h.filled, h.trimmed, h.notMem (by decide), h.notMem (by decide)⟩

theorem soundElementType (h : IsTypeWord t) : SoundElementType t :=
  .plain h.filled (h.notMem (by decide))
    (fun starts => h.notMem (c := ')') (by decide) (List.mem_of_mem_head? starts))
    fun lead => h.notMem (c := '<') (by decide) (lead.subset (by decide))

end IsTypeWord

/-- A type without arguments, whose names are names. -/
def IsPlainType (t : JavaType) : Prop := t.Legal ∧ t.render = t.erased

theorem IsPlainType.word {t : JavaType} (h : IsPlainType t) : IsTypeWord t.render := by
  obtain ⟨legal, plain⟩ := h
  rw [plain]
  exact ⟨legal.flat.1.filled, legal.flat.1.chars⟩

/-- Characters of names and dots end no value. -/
theorem clear_valueEnds {t : List Char} (chars : ∀ c ∈ t, isNamePart c ∨ c = '.') : Clear brackets valueEnds t := by
  refine clear_of_plain (List.Subset.refl _) fun c mem => ?_
  have others : ∀ d ∈ marks ++ valueEnds, isNamePart d = false ∧ d ≠ '.' := by decide
  refine ⟨fun mark => ?_, fun mark => ?_⟩
  all_goals
    obtain ⟨noPart, noDot⟩ := others c (by simp [mark])
    rcases chars c mem with part | dot
    · rw [noPart] at part
      cases part
    · exact noDot dot

theorem clear_valueEnds_erasedNested {nested : List NestedType} (h : LegalNested nested) :
    Clear brackets valueEnds (erasedNested nested) := by
  induction nested with
  | nil => exact clear_nil
  | cons n nested ih =>
    obtain ⟨name, arguments⟩ := n
    obtain ⟨named, -, inside⟩ := h
    refine Clear.append (clear_valueEnds fun c mem => .inl ?_) (ih inside)
    rcases List.mem_cons.1 mem with rfl | mem
    · decide
    · exact named.parts c mem

/-- A type without arguments does not end a value. -/
theorem clear_valueEnds_erased {t : JavaType} (h : t.Legal) : Clear brackets valueEnds t.erased := by
  cases t with
  | primitive p => exact clear_valueEnds fun c mem => .inl ((primitive_parts p).parts c mem)
  | «variable» name => exact clear_valueEnds fun c mem => .inl (IsIdentifier.parts h c mem)
  | array element => exact (clear_valueEnds_erased (t := element) h).append rfl
  | classType name arguments nested =>
    exact (clear_valueEnds (IsQualified.parts h.1)).append (clear_valueEnds_erasedNested h.2.2)

/-- What is written behind a dot after a type is a value of its own. -/
theorem IsPlainType.prints {t : JavaType} (h : IsPlainType t) {name : List Char} (named : IsIdentifier name)
    {text : String} (same : text.toList = t.render ++ '.' :: name) : Prints (.literal text) := by
  have word := h.word
  have chars : ∀ c ∈ t.render ++ '.' :: name, isTypeChar c := by
    intro c mem
    rcases List.mem_append.1 mem with mem | mem
    · exact word.chars c mem
    · rcases List.mem_cons.1 mem with rfl | mem
      · decide
      · exact isTypeChar_of_isNamePart (named.parts c mem)
  have whole : IsTypeWord (t.render ++ '.' :: name) := ⟨by simp, chars⟩
  refine ⟨?_, ?_⟩
  · rw [SoundValue, same]
    refine .of_clear whole.filled ?_ (fun c mem => isBlank_of_isTypeChar (chars c mem)) fun c mem mark => ?_
    · rw [h.2]
      refine (clear_valueEnds_erased h.1).append (clear_valueEnds fun c mem => ?_)
      rcases List.mem_cons.1 mem with rfl | mem
      · exact .inr rfl
      · exact .inl (named.parts c mem)
    · rw [List.head?_append_of_ne_nil _ word.filled] at mem
      have others : ∀ d ∈ ['[', '"', '\''], isNamePart d = false := by decide
      have part := h.1.starts c mem
      rw [others c mark] at part
      cases part
  · rw [printValue, same]
    exact whole.singleLine

/-! ### Legal annotations -/

variable {pool : Pool}

/-- The text of an index is a name, if it is a text. -/
def LegalNameAt (pool : Pool) (index : UInt16) : Prop := ∀ name, pool.text index = .ok name → IsIdentifier name

/-- The type that the descriptor of an index stands for. -/
def typeAt (pool : Pool) (index : UInt16) : Except ClassFault JavaType := do
  liftDescriptor Descriptor.ofField (← pool.text index)

/-- The descriptor of an index is that of a legal type without arguments, if it is a descriptor. -/
def LegalTypeAt (pool : Pool) (index : UInt16) : Prop := ∀ t, typeAt pool index = .ok t → IsPlainType t

mutual

/-- A value whose types and names are such. -/
def LegalElement (pool : Pool) : ElementEntry → Prop
  | .constant .. => True
  | .enumConstant type name => LegalTypeAt pool type ∧ LegalNameAt pool name
  | .classLiteral type => LegalTypeAt pool type
  | .nested use => LegalUse pool use
  | .array items => LegalElements pool items

/-- An annotation whose types and names are such. -/
def LegalUse (pool : Pool) : UseEntryOf ElementEntry → Prop
  | ⟨type, pairs⟩ => LegalTypeAt pool type ∧ LegalPairs pool pairs

/-- Elements whose types and names are such. -/
def LegalPairs (pool : Pool) : List (UInt16 × ElementEntry) → Prop
  | [] => True
  | (name, value) :: more => LegalNameAt pool name ∧ LegalElement pool value ∧ LegalPairs pool more

/-- Values whose types and names are such. -/
def LegalElements (pool : Pool) : List ElementEntry → Prop
  | [] => True
  | value :: more => LegalElement pool value ∧ LegalElements pool more

end

/-! ### What is described -/

theorem typeText_cases {index : UInt16} {type : String} (h : typeText pool index = .ok type) :
    ∃ t, typeAt pool index = .ok t ∧ type = String.ofList t.render := by
  unfold typeText at h
  obtain ⟨text, found, h⟩ := bind_eq_ok_iff.1 h
  obtain ⟨t, read, h⟩ := bind_eq_ok_iff.1 h
  exact ⟨t, bind_eq_ok_iff.2 ⟨text, found, read⟩, (Except.ok.inj h).symm⟩

/-- An annotation as it is described, wherever it stands. -/
structure DescribedUse (use : AnnotationUse) : Prop where
  name : IsTypeWord use.name.toList
  elements : SoundElements use.elements
  singleLine : SingleLine (printElements use.elements)

theorem DescribedUse.sound {use : AnnotationUse} (h : DescribedUse use) (place : SoundPlace use.place) :
    SoundUse use := by
  obtain ⟨target, name, elements, found⟩ := use
  exact ⟨h.name.soundName, place, h.elements⟩

/-- An annotation in a place that stays on one line does so as well. -/
theorem DescribedUse.printUse {use : AnnotationUse} (h : DescribedUse use)
    (place : ∀ p ∈ use.place, SingleLine p.path.toList) : SingleLine (printUse use) := by
  obtain ⟨target, name, elements, found⟩ := use
  have lead := singleLine_printTarget target place
  have named : SingleLine name.toList := h.name.singleLine
  have inside : SingleLine (printElements elements) := h.singleLine
  simp [ApiSurface.printUse, lead, named, inside]

/-- An annotation in a place whose path is a word is given back by its line. -/
theorem DescribedUse.printable {use : AnnotationUse} (h : DescribedUse use) (sound : SoundPlace use.place)
    (place : ∀ p ∈ use.place, SingleLine p.path.toList) : use.Printable :=
  ⟨ofLine_printUse (h.sound sound), h.printUse place⟩

/-- A constant of an annotation is given back by a line, and its type is a word. -/
theorem describeConstant_sound {tag : UInt8} {index : UInt16} {found : String × ElementValue}
    (h : describeConstant pool tag index = .ok found) : IsTypeWord found.1.toList ∧ Prints found.2 := by
  unfold describeConstant at h
  obtain ⟨entry, -, h⟩ := bind_eq_ok_iff.1 h
  have typed : ∀ type ∈ ["byte", "short", "int", "boolean", "char", "long", "float", "double", "java.lang.String"],
      IsTypeWord type.toList := by decide
  split at h
  all_goals try
    obtain rfl := Except.ok.inj h
    refine ⟨typed _ (by simp [literal]), ?_⟩
  · exact .of_word (isWord_integer _)
  · exact .of_word (isWord_integer _)
  · exact .of_word (isWord_integer _)
  · exact .of_word (isWord_truthText _)
  · exact .charLiteral _
  · exact .of_word (isWord_integer _)
  · exact .of_word (Literal.isWord_floatLiteral _)
  · exact .of_word (Literal.isWord_doubleLiteral _)
  · obtain ⟨text, -, h⟩ := bind_eq_ok_iff.1 h
    obtain rfl := Except.ok.inj h
    exact ⟨typed _ (by simp), .string _⟩
  · cases h

mutual

/-- A value that is described is given back by a line, and its type is a word. -/
theorem describeElement_sound : ∀ {entry : ElementEntry} {found : String × ElementValue},
    describeElement pool entry = .ok found → LegalElement pool entry →
      IsTypeWord found.1.toList ∧ Prints found.2
  | .constant tag index, found, h, _ => describeConstant_sound (by rwa [describeElement] at h)
  | .enumConstant type name, found, h, legal => by
    rw [describeElement] at h
    obtain ⟨text, typed, h⟩ := bind_eq_ok_iff.1 h
    obtain ⟨constant, named, h⟩ := bind_eq_ok_iff.1 h
    obtain ⟨t, read, rfl⟩ := typeText_cases typed
    obtain rfl := Except.ok.inj h
    have plain := legal.1 t read
    exact ⟨by simpa using plain.word, plain.prints (legal.2 constant named) (by simp)⟩
  | .classLiteral type, found, h, legal => by
    rw [describeElement] at h
    obtain ⟨text, typed, h⟩ := bind_eq_ok_iff.1 h
    obtain ⟨t, read, rfl⟩ := typeText_cases typed
    obtain rfl := Except.ok.inj h
    have word : IsTypeWord "java.lang.Class".toList := by decide
    have word' : IsIdentifier "class".toList := by decide
    exact ⟨word, (legal t read).prints word' (by simp)⟩
  | .nested use, found, h, legal => by
    rw [describeElement] at h
    obtain ⟨inner, described, h⟩ := bind_eq_ok_iff.1 h
    obtain rfl := Except.ok.inj h
    obtain ⟨sound, none⟩ := describeUse_sound described legal
    have noPlace : SoundPlace inner.place ∧ ∀ p ∈ inner.place, SingleLine p.path.toList := by simp [SoundPlace, none]
    exact ⟨sound.name, sound.sound noPlace.1, sound.printUse noPlace.2⟩
  | .array items, found, h, legal => by
    rw [describeElement] at h
    obtain ⟨values, described, h⟩ := bind_eq_ok_iff.1 h
    obtain rfl := Except.ok.inj h
    obtain ⟨typed, sound, single⟩ := describeElements_sound described legal
    refine ⟨?_, sound, by simpa [printValue] using single⟩
    rw [String.toList_append]
    refine IsTypeWord.array ?_
    cases values with
    | nil => decide
    | cons v values => exact typed v (by simp)

/-- An annotation that is described has no place. -/
theorem describeUse_sound : ∀ {entry : UseEntryOf ElementEntry} {use : AnnotationUse},
    describeUse pool entry = .ok use → LegalUse pool entry → DescribedUse use ∧ use.place = none
  | ⟨type, pairs⟩, use, h, legal => by
    rw [describeUse] at h
    obtain ⟨text, typed, h⟩ := bind_eq_ok_iff.1 h
    obtain ⟨elements, described, h⟩ := bind_eq_ok_iff.1 h
    obtain ⟨t, read, rfl⟩ := typeText_cases typed
    obtain rfl := Except.ok.inj h
    obtain ⟨sound, single⟩ := describePairs_sound described legal.2
    exact ⟨⟨by simpa using (legal.1 t read).word, sound, single⟩, rfl⟩

theorem describePairs_sound : ∀ {pairs : List (UInt16 × ElementEntry)} {elements : List AnnotationElement},
    describePairs pool pairs = .ok elements → LegalPairs pool pairs →
      SoundElements elements ∧ SingleLine (printElements elements)
  | [], elements, h, _ => by
    rw [describePairs] at h
    obtain rfl := Except.ok.inj h
    exact ⟨trivial, by simp [printElements]⟩
  | (name, value) :: more, elements, h, legal => by
    rw [describePairs] at h
    obtain ⟨⟨type, inner⟩, described, h⟩ := bind_eq_ok_iff.1 h
    obtain ⟨text, named, h⟩ := bind_eq_ok_iff.1 h
    obtain ⟨others, later, h⟩ := bind_eq_ok_iff.1 h
    obtain rfl := Except.ok.inj h
    obtain ⟨isName, legalValue, legalMore⟩ := legal
    have identifier := isName text named
    obtain ⟨typed, prints⟩ := describeElement_sound described legalValue
    obtain ⟨sounds, singles⟩ := describePairs_sound later legalMore
    have word : IsTypeWord text := ⟨identifier.filled, fun c mem => isTypeChar_of_isNamePart (identifier.parts c mem)⟩
    have element : SoundElement ⟨type, String.ofList text, inner⟩ := by
      refine ⟨typed.soundElementType, ?_, prints.sound⟩
      rw [String.toList_ofList]
      exact ⟨word.filled, word.trimmed, word.notMem (by decide), word.notMem (by decide)⟩
    refine ⟨⟨element, sounds⟩, singleLine_printElements_cons ?_ singles⟩
    simp [printElement, typed.singleLine, word.singleLine, prints.singleLine]

theorem describeElements_sound : ∀ {items : List ElementEntry} {values : List (String × ElementValue)},
    describeElements pool items = .ok values → LegalElements pool items →
      (∀ v ∈ values, IsTypeWord v.1.toList) ∧ SoundValues (values.map Prod.snd) ∧
        SingleLine (printValues (values.map Prod.snd))
  | [], values, h, _ => by
    rw [describeElements] at h
    obtain rfl := Except.ok.inj h
    exact ⟨by simp, trivial, by simp [printValues]⟩
  | value :: more, values, h, legal => by
    rw [describeElements] at h
    obtain ⟨first, described, h⟩ := bind_eq_ok_iff.1 h
    obtain ⟨others, later, h⟩ := bind_eq_ok_iff.1 h
    obtain rfl := Except.ok.inj h
    obtain ⟨typed, prints⟩ := describeElement_sound described legal.1
    obtain ⟨types, sounds, singles⟩ := describeElements_sound later legal.2
    refine ⟨fun v mem => ?_, ⟨prints.sound, sounds⟩, singleLine_printValues_cons prints.singleLine singles⟩
    rcases List.mem_cons.1 mem with rfl | mem
    · exact typed
    · exact types v mem

end

/-! ### Attributes -/

/-- Annotations whose types and names are such, among some attributes. -/
structure LegalUses (pool : Pool) (attributes : List Attribute) : Prop where
  uses : ∀ uses, pool.attributeValue? usesAttribute (counted decodeUse) attributes = .ok uses →
    ∀ use ∈ uses.getD [], LegalUse pool use
  placed : ∀ placed, pool.attributeValue? placedUsesAttribute (counted PlacedUse.decode) attributes = .ok placed →
    ∀ p ∈ placed.getD [], LegalUse pool p.use

/-- Annotations of parameters whose types and names are such, among some attributes. -/
def LegalParameterUses (pool : Pool) (attributes : List Attribute) : Prop :=
  ∀ uses, pool.attributeValue? parameterUsesAttribute decodeParameterUses attributes = .ok uses →
    ∀ list ∈ uses.getD [], ∀ use ∈ list, LegalUse pool use

/-- A default whose types and names are such, among some attributes. -/
def LegalDefault (pool : Pool) (attributes : List Attribute) : Prop :=
  ∀ value, pool.attributeValue? "AnnotationDefault" decodeElement attributes = .ok (some value) →
    LegalElement pool value

/-- A path holds digits, colons and slashes. -/
theorem chars_path (p : PlacedUse) : ∀ c ∈ p.place.path.toList, c.isDigit ∨ c = ':' ∨ c = '/' := by
  intro c mem
  have number (n : UInt8) : (toString n.toNat).toList = decimal n.toNat := by
    simp [decimal, Nat.repr, toString]
  simp only [PlacedUse.place, String.toList_intercalate, String.reduceToList, List.map_map] at mem
  rcases mem_or_of_mem_join mem with slash | ⟨text, inList, inside⟩
  · exact .inr (.inr (List.mem_singleton.1 slash))
  · obtain ⟨step, -, rfl⟩ := List.mem_map.1 inList
    simp only [Function.comp_apply, stepText, String.toList_append, number, List.mem_append] at inside
    rcases inside with (digit | colon) | digit
    · exact .inl (isDigit_of_mem_decimal digit)
    · exact .inr (.inl (by simpa using colon))
    · exact .inl (isDigit_of_mem_decimal digit)

/-- The place of a type annotation is one word. -/
theorem soundPlace_place (p : PlacedUse) :
    SoundPlace (some p.place) ∧ ∀ q ∈ some p.place, SingleLine q.path.toList := by
  have never {c : Char} (other : c.isDigit = false ∧ c ≠ ':' ∧ c ≠ '/') : c ∉ p.place.path.toList := by
    intro mem
    rcases chars_path p c mem with digit | colon | slash
    · rw [other.1] at digit
      cases digit
    · exact other.2.1 colon
    · exact other.2.2 slash
  refine ⟨fun q mem => ?_, fun q mem c inside => ?_⟩
  · obtain rfl := Option.some.inj mem
    exact ⟨never (by decide), fun same => never (c := '-') (by decide) (by simp [same])⟩
  · obtain rfl := Option.some.inj mem
    exact ⟨fun same => never (c := '\n') (by decide) (same ▸ inside),
      fun same => never (c := '\r') (by decide) (same ▸ inside)⟩

variable {attributes : List Attribute}

/-- Annotations that are described are given back by their lines. -/
theorem describeUses_printable {uses : List AnnotationUse} (h : describeUses pool attributes = .ok uses)
    (legal : LegalUses pool attributes) : ∀ use ∈ uses, use.Printable := by
  unfold describeUses at h
  obtain ⟨entries, found, h⟩ := bind_eq_ok_iff.1 h
  obtain ⟨plain, described, h⟩ := bind_eq_ok_iff.1 h
  obtain ⟨rows, foundPlaced, h⟩ := bind_eq_ok_iff.1 h
  obtain ⟨placed, describedPlaced, h⟩ := bind_eq_ok_iff.1 h
  obtain rfl := Except.ok.inj h
  intro use mem
  rcases List.mem_append.1 mem with mem | mem
  · obtain ⟨entry, inEntries, one⟩ := exists_of_mem_mapM described mem
    obtain ⟨sound, none⟩ := describeUse_sound one (legal.uses entries found entry inEntries)
    exact sound.printable (by simp [SoundPlace, none]) (by simp [none])
  · obtain ⟨row, inRows, one⟩ := exists_of_mem_mapM describedPlaced mem
    obtain ⟨inner, described, same⟩ := bind_eq_ok_iff.1 one
    obtain rfl := Except.ok.inj same
    obtain ⟨sound, -⟩ := describeUse_sound described (legal.placed rows foundPlaced row inRows)
    exact DescribedUse.printable ⟨sound.name, sound.elements, sound.singleLine⟩ (soundPlace_place row).1
      (soundPlace_place row).2

/-- Annotations of parameters that are described are given back by their lines. -/
theorem describeParameterUses_printable {uses : List AnnotationUse}
    (h : describeParameterUses pool attributes = .ok uses) (legal : LegalParameterUses pool attributes) :
    ∀ use ∈ uses, use.Printable := by
  unfold describeParameterUses at h
  obtain ⟨entries, found, h⟩ := bind_eq_ok_iff.1 h
  obtain ⟨lists, described, h⟩ := bind_eq_ok_iff.1 h
  obtain rfl := Except.ok.inj h
  intro use mem
  obtain ⟨list, inLists, inList⟩ := List.mem_flatten.1 mem
  obtain ⟨⟨row, place⟩, inEntries, all⟩ := exists_of_mem_mapM described inLists
  obtain ⟨entry, inRow, one⟩ := exists_of_mem_mapM all inList
  obtain ⟨inner, describedOne, same⟩ := bind_eq_ok_iff.1 one
  obtain rfl := Except.ok.inj same
  have inRows : row ∈ entries.getD [] := (List.mem_zipIdx inEntries).2.2 ▸ List.getElem_mem _
  obtain ⟨sound, none⟩ := describeUse_sound describedOne (legal entries found row inRows entry inRow)
  exact DescribedUse.printable ⟨sound.name, sound.elements, sound.singleLine⟩ (by simp [SoundPlace, none])
    (by simp [none])

/-- The text of a default can stand behind the word for defaults. -/
theorem isDefaultText_defaultText {entry : MemberEntry} {default : Option String}
    (h : defaultText? pool entry = .ok default) (legal : LegalDefault pool entry.attributes) :
    ∀ value ∈ default, IsDefaultText value.toList := by
  unfold defaultText? at h
  obtain ⟨found, value, h⟩ := bind_eq_ok_iff.1 h
  cases found with
  | none =>
    obtain rfl := Except.ok.inj h
    nofun
  | some element =>
    obtain ⟨⟨type, inner⟩, described, h⟩ := bind_eq_ok_iff.1 h
    obtain rfl := Except.ok.inj h
    obtain ⟨-, prints⟩ := describeElement_sound described (legal element value)
    intro text mem
    obtain rfl := Option.some.inj mem
    simp only [ElementValue.text, String.toList_ofList]
    exact .printValue prints.sound prints.singleLine

end ClassFile
end ApiSurface
