import ApiSurface.Proofs.ClassFile.Plain
import ApiSurface.Proofs.ClassFile.Uses
import ApiSurface.Proofs.SignatureFile.Nested

/-!
Classes of class files as blocks. The names in a class file are names as in source, and none that a line takes
for a keyword; what is described of it can be written and is read back. Main statement: the block of such a
class is read as one class of its name with as many members of each kind (`ClassFile.readAll_of_parse`).
-/

namespace ApiSurface

open ApiSurface.Text ApiSurface.Line ApiSurface.SignatureFile

/-! ### Legal signatures -/

/-- The signature of a class whose names are names. -/
structure ClassSignature.Legal (s : ClassSignature) : Prop where
  parameters : ∀ ps ∈ s.parameters, ∀ p ∈ ps, p.Legal
  superclass : s.superclass.Legal ∧ NotKeyword s.superclass.erased
  interfaces : ∀ t ∈ s.interfaces, t.Legal ∧ NotKeyword t.erased

/-- The signature of a method whose names are names. -/
structure MethodSignature.Legal (s : MethodSignature) : Prop where
  parameters : ∀ ps ∈ s.parameters, ∀ p ∈ ps, p.Legal
  arguments : ∀ t ∈ s.arguments, t.Legal
  result : s.result.Legal ∧ NotKeyword s.result.erased
  throws : ∀ t ∈ s.throws, t.Legal

namespace ClassFile

/-- A field whose names are names. -/
structure LegalField (pool : Pool) (entry : MemberEntry) : Prop where
  type : ∀ t, declaredType pool entry = .ok t → t.Legal ∧ NotKeyword t.erased
  uses : LegalUses pool entry.attributes

/-- A method or a constructor whose names are names, in a class of this name. -/
structure LegalMethod (pool : Pool) (className : List Char) (entry : MemberEntry) : Prop where
  name : ∀ name, pool.text entry.name = .ok name →
    if name = constructorName then simpleName (String.ofList className) ≠ "" else IsIdentifier name
  types : ∀ s, declaredTypes pool entry = .ok s → s.Legal
  thrown : ∀ thrown, thrownAt pool entry = .ok thrown → ∀ index ∈ thrown.getD [],
    ∀ name, pool.className index = .ok name → IsQualified name
  default : LegalDefault pool entry.attributes
  uses : LegalUses pool entry.attributes
  parameterUses : LegalParameterUses pool entry.attributes

/-- The names in the class file of a class of this name are names, and none at the front of a line is a
keyword. -/
structure LegalNames (c : ClassFile) (name : List Char) : Prop where
  own : IsQualified name ∧ NotKeyword name
  signature : ∀ text s, c.pool.attributeText? "Signature" c.attributes = .ok (some text) →
    liftDescriptor Descriptor.ofClass text = .ok s → s.Legal
  above : ∀ index ∈ c.superclass :: c.interfaces, ∀ other, c.pool.className index = .ok other →
    IsQualified other ∧ NotKeyword other
  nested : ∀ rows, c.pool.attributeValue? "InnerClasses" (counted NestedRow.decode) c.attributes = .ok rows →
    ∀ row ∈ rows.getD [], LegalNameAt c.pool row.simpleName ∧ ∀ other, row.Shows c.pool name other →
      IsQualified other ∧ nestedToken name other ≠ [] ∧ NotKeyword (nestedToken name other)
  uses : LegalUses c.pool c.attributes
  fields : ∀ entry ∈ c.fields, LegalNameAt c.pool entry.name ∧
    ((modifiersOf fieldFlags entry.flags).isHidden = false → LegalField c.pool entry)
  methods : ∀ entry ∈ c.methods, (modifiersOf methodFlags entry.flags).isHidden = false →
    LegalMethod c.pool name entry

/-! ### Texts of class files -/

theorem isParametersText {ps : List TypeParameter} (legal : ∀ p ∈ ps, p.Legal) :
    IsParametersText (String.ofList (renderParameters ps)).toList := ⟨ps, legal, by simp⟩

theorem isTypeText {t : JavaType} (legal : t.Legal ∧ NotKeyword t.erased) :
    IsTypeText (String.ofList t.render).toList := ⟨t, legal.1, legal.2, by simp⟩

/-- A qualified name is that of a class. -/
theorem exists_type_of_qualified {name : List Char} (h : IsQualified name) :
    ∃ t : JavaType, t.Legal ∧ t.erased = name ∧ t.render = name := by
  have same : dotted name = name := by
    refine (List.map_congr_left fun c mem => if_neg ?_).trans (List.map_id _)
    rintro rfl
    have other : isNamePart '/' = false ∧ '/' ≠ '.' := by decide
    rcases h.parts '/' mem with part | dot
    · rw [other.1] at part
      cases part
    · exact other.2 dot
  exact ⟨.classType name none [], ⟨same.symm ▸ h, trivial, trivial⟩, by simp [JavaType.erased, erasedNested, same],
    by simp [JavaType.render, renderArguments?, renderNested, same]⟩

theorem isTypeText_of_qualified {name : List Char} (h : IsQualified name ∧ NotKeyword name) :
    IsTypeText (String.ofList name).toList := by
  obtain ⟨t, legal, erased, render⟩ := exists_type_of_qualified h.1
  exact ⟨t, legal, erased.symm ▸ h.2, by simp [render]⟩

/-- A list whose last array takes any number of values is a list of types, with dots behind it or without. -/
theorem join_variadic {ts : List JavaType} (legal : ∀ t ∈ ts, t.Legal) :
    ∃ us : List JavaType, us.length = ts.length ∧ (∀ u ∈ us, u.Legal) ∧
      (join [','] (variadic (ts.map JavaType.render)) = renderTypes us ∨
        join [','] (variadic (ts.map JavaType.render)) = renderTypes us ++ ['.', '.', '.']) := by
  induction ts with
  | nil => exact ⟨[], rfl, by simp, .inl rfl⟩
  | cons t ts ih =>
    have first := legal t (by simp)
    cases ts with
    | nil =>
      cases array : t.isArray with
      | false =>
        refine ⟨[t], rfl, by simpa using first, .inl ?_⟩
        simp [variadic, beforeTail?_render first array, renderTypes]
      | true =>
        cases t with
        | array element =>
          have ends : beforeTail? ['[', ']'] (JavaType.array element).render = some element.render :=
            beforeTail?_append _ _
          have inner : element.Legal := first
          exact ⟨[element], rfl, by simpa using inner, .inr (by simp [variadic, ends, renderTypes])⟩
        | _ => cases array
    | cons u ts =>
      obtain ⟨us, length, all, shape⟩ := ih fun v mem => legal v (by simp [mem])
      cases list : variadic ((u :: ts).map JavaType.render) with
      | nil => exact absurd list (variadic_ne_nil _ _)
      | cons a more =>
        have whole : variadic ((t :: u :: ts).map JavaType.render) = t.render :: a :: more := by
          rw [← list]
          rfl
        obtain ⟨v, vs, rfl⟩ := List.exists_cons_of_length_eq_add_one length
        rw [list] at shape
        refine ⟨t :: v :: vs, by simp [length], by simpa using ⟨first, by simpa using all⟩, ?_⟩
        rw [whole, join_cons_cons, renderTypes, List.map_cons, List.map_cons, join_cons_cons, ← List.map_cons,
          ← renderTypes]
        exact shape.imp (fun same => by rw [same]) fun same => by simp [same]

/-- The arguments of a method are types with commas between them. -/
theorem isArgumentsText {modifiers : Modifiers} {types : MethodTypes} {ts : List JavaType}
    (legal : ∀ t ∈ ts, t.Legal) (same : types.arguments = ts.map JavaType.render) :
    IsArgumentsText (argumentsText modifiers types).toList := by
  rw [argumentsText, String.toList_ofList, same]
  split
  · obtain ⟨us, -, all, shape⟩ := join_variadic legal
    exact ⟨us, all, shape⟩
  · exact ⟨ts, legal, .inl rfl⟩

/-- The last part of a name is a name, if there is any. -/
theorem isIdentifier_simpleName {name : List Char} (h : IsQualified name)
    (filled : simpleName (String.ofList name) ≠ "") : IsIdentifier (simpleName (String.ofList name)).toList :=
  ⟨fun none => filled (String.toList_injective (by simpa using none)),
    isNamePart_of_mem_simpleName (by simpa using h)⟩

/-! ### Members of class files -/

/-- A nested class as a class of this name shows it on a line. -/
structure ShownNested (name : List Char) (m : Member) : Prop where
  nested : m.detail = .nested
  qualified : IsQualified m.name.toList
  filled : nestedToken name m.name.toList ≠ []
  word : NotKeyword (nestedToken name m.name.toList)

/-- A member of the class of this name that is written as in source, or a nested class of any name. -/
structure CapturedMember (name : List Char) (kind : MemberKind) (m : Member) : Prop where
  kind : m.kind = kind
  declaring : m.declaringClass = String.ofList name
  direct : m.isDirect
  uses : ∀ use ∈ m.annotations, use.Printable
  shape : (m.detail ≠ .nested ∧ m.detail.WellFormed (String.ofList name) m.name) ∨ ShownNested name m

variable {pool : Pool} {c : ClassFile} {name : List Char} {entry : MemberEntry}

theorem capturedMember_field {modifiers : Modifiers} {fieldName : List Char} {m : Member}
    (h : describeField pool (String.ofList name) fieldName modifiers entry = .ok m) (named : IsIdentifier fieldName)
    (legal : LegalField pool entry) : CapturedMember name .field m := by
  obtain ⟨type, constant, uses, typed, valued, annotated, rfl⟩ := describeField_cases h
  refine ⟨rfl, rfl, rfl, describeUses_printable annotated legal.uses,
    .inl ⟨nofun, isTypeText (legal.type type typed), by simpa using named, fun text mem => ?_⟩⟩
  obtain ⟨value, inConstant, rfl⟩ := Option.map_eq_some_iff.1 mem
  obtain ⟨index, read⟩ := valued value inConstant
  simpa using singleLine_constantText read

theorem capturedMember_method {modifiers : Modifiers} {methodName : List Char} {m : Member}
    (h : describeMethod pool (String.ofList name) methodName modifiers entry = .ok m) (own : IsQualified name)
    (read : pool.text entry.name = .ok methodName) (legal : LegalMethod pool name entry) :
    CapturedMember name m.kind m := by
  obtain ⟨types, default, plain, uses, typed, value, annotated, ⟨others, parameters, rfl⟩, cases⟩ :=
    describeMethod_cases h
  obtain ⟨signature, declared, listed, arguments, result, throws⟩ := methodTypes_cases typed
  have lawful := legal.types signature declared
  have list : ∀ text ∈ types.typeParameters, IsParametersText text.toList := by
    intro text mem
    rw [listed] at mem
    obtain ⟨ps, inSignature, rfl⟩ := Option.map_eq_some_iff.1 mem
    exact isParametersText (lawful.parameters ps inSignature)
  have given := @isArgumentsText modifiers types _ lawful.arguments arguments
  have thrown : AreExceptions types.throws := by
    intro e mem
    rcases throws e mem with ⟨t, inSignature, rfl⟩ | ⟨thrown, found, index, inThrown, text, named, rfl⟩
    · exact ⟨t, lawful.throws t inSignature, by simp⟩
    · obtain ⟨t, legalClass, -, render⟩ := exists_type_of_qualified
        (legal.thrown thrown found index inThrown text named)
      exact ⟨t, legalClass, by simp [render]⟩
  have printable : ∀ use ∈ plain ++ others, use.Printable := fun use mem => (List.mem_append.1 mem).elim
    (describeUses_printable annotated legal.uses use)
    (describeParameterUses_printable parameters legal.parameterUses use)
  have isName := legal.name methodName read
  rcases cases with ⟨constructs, rfl⟩ | ⟨other, rfl⟩
  · rw [if_pos constructs] at isName
    exact ⟨rfl, rfl, rfl, printable, .inl ⟨nofun, list, isIdentifier_simpleName own isName, given, thrown⟩⟩
  · rw [if_neg other] at isName
    have resulting : IsTypeText types.result.toList := result ▸ isTypeText lawful.result
    exact ⟨rfl, rfl, rfl, printable, .inl ⟨nofun, list, resulting, by simpa using isName, given, thrown,
      isDefaultText_defaultText value legal.default⟩⟩

/-- The super types of a class with legal names are types. -/
theorem LegalNames.superTypes (legal : c.LegalNames name) {types : SuperTypes} (h : c.superTypes = .ok types) :
    (∀ list ∈ types.typeParameters, IsParametersText list.toList) ∧
      (∀ text ∈ types.superclass, IsTypeText text.toList) ∧ ∀ text ∈ types.interfaces, IsTypeText text.toList := by
  rcases superTypes_cases h with ⟨text, signature, found, read, rfl⟩ | ⟨none, superclass, interfaces⟩
  · have lawful := legal.signature text signature found read
    refine ⟨fun list mem => ?_, fun text mem => ?_, fun text mem => ?_⟩
    · obtain ⟨ps, inSignature, rfl⟩ := Option.map_eq_some_iff.1 mem
      exact isParametersText (lawful.parameters ps inSignature)
    · obtain rfl := Option.some.inj mem
      exact isTypeText lawful.superclass
    · obtain ⟨t, inSignature, rfl⟩ := List.mem_map.1 mem
      exact isTypeText (lawful.interfaces t inSignature)
  · refine ⟨by simp [none], fun text mem => ?_, fun text mem => ?_⟩
    · obtain ⟨above, read, rfl⟩ := superclass text mem
      exact isTypeText_of_qualified (legal.above _ (by simp) above read)
    · obtain ⟨index, inList, above, read, rfl⟩ := interfaces text mem
      exact isTypeText_of_qualified (legal.above index (by simp [inList]) above read)

variable {p : Parts}

/-- Every member of a class with legal names can be written. -/
theorem LegalNames.member (legal : c.LegalNames name) (found : p.FoundIn c name) {kind : MemberKind} {m : Member}
    (mem : m ∈ p.members (String.ofList name) kind) : CapturedMember name kind m := by
  obtain ⟨-, superclass, interfaces⟩ := legal.superTypes found.types
  have method (inMethods : some m ∈ p.methods) : CapturedMember name m.kind m := by
    obtain ⟨entry, inFile, accessible⟩ := exists_of_mem_mapM found.methods inMethods
    obtain ⟨methodName, read, ⟨-, hidden⟩ | ⟨-, shown, n, same, described⟩⟩ := accessibleMethod?_cases accessible
    · cases hidden
    · obtain rfl := Option.some.inj same
      exact capturedMember_method described legal.own.1 read (legal.methods entry inFile shown)
  cases kind with
  | superclass =>
    obtain ⟨above, inTypes, rfl⟩ := Option.map_eq_some_iff.1 (Option.mem_toList.1 mem)
    refine ⟨rfl, rfl, rfl, by simp [Member.superclass], .inl ⟨nofun, superclass above ?_⟩⟩
    split at inTypes
    · cases inTypes
    · exact inTypes
  | superinterface =>
    obtain ⟨above, inTypes, rfl⟩ := List.mem_map.1 mem
    exact ⟨rfl, rfl, rfl, by simp [Member.superinterface], .inl ⟨nofun, interfaces above inTypes⟩⟩
  | field =>
    obtain ⟨one, inFields, right⟩ := List.mem_filterMap.1 mem
    obtain rfl := Sum.getRight?_eq_some_iff.1 right
    obtain ⟨entry, inFile, described⟩ := exists_of_mem_mapM found.fields inFields
    obtain ⟨fieldName, read, ⟨-, hidden⟩ | ⟨shown, n, same, field⟩⟩ := fieldOrName_cases described
    · cases hidden
    · obtain rfl := Sum.inr.inj same
      obtain ⟨named, lawful⟩ := legal.fields entry inFile
      exact capturedMember_field field (named fieldName read) (lawful shown)
  | method | constructor =>
    obtain ⟨inMethods, ofKind⟩ := List.mem_filter.1 mem
    obtain ⟨_, inMethods, rfl⟩ := List.mem_filterMap.1 inMethods
    exact (of_decide_eq_true ofKind) ▸ method inMethods
  | nested =>
    obtain ⟨rows, table, walk⟩ := found.nested
    rcases nested_of_foldlM walk mem with none | ⟨row, inRows, other, shows, rfl⟩
    · cases none
    · obtain ⟨-, lawful⟩ := legal.nested rows table row inRows
      obtain ⟨qualified, filled, word⟩ := lawful other shows
      exact ⟨rfl, rfl, rfl, by simp [Member.nested], .inr ⟨rfl, by simpa [Member.nested] using qualified,
        by simpa [Member.nested] using filled, by simpa [Member.nested] using word⟩⟩

/-! ### Classes of class files -/

/-- A class of this name all of whose parts can be written. -/
structure CapturedClass (name : List Char) (d : ClassDescription) : Prop where
  named : d.name = String.ofList name
  own : IsQualified name ∧ NotKeyword name
  parameters : ∀ list ∈ d.typeParameters, IsParametersText list.toList
  members : ∀ kind, ∀ m ∈ d.members kind, CapturedMember name kind m
  uses : ∀ use ∈ d.annotations, use.Printable
  hiddenFields : ∀ names ∈ d.hiddenFields, HiddenWellFormed names
  hiddenClasses : ∀ names ∈ d.hiddenClasses, HiddenWellFormed names
  noModule : d.moduleInfo = none

theorem hiddenWellFormed_of_identifiers {names : Ordered.Set String}
    (h : ∀ text ∈ names.toList, IsIdentifier text.toList) : HiddenWellFormed names := by
  intro text mem
  have identifier := h text mem
  have comma : ',' ∉ text.toList := fun inside => (notMem_of_isNamePart (identifier.parts ',' inside)).2 (by simp)
  exact ⟨fun none => identifier.filled (by simp [none]), (renders_identifier identifier).trimmed, comma,
    identifier.plain.2.2.2.2⟩

/-- What is described of a class file with legal names can be written. -/
theorem LegalNames.captured (legal : c.LegalNames name) {d : ClassDescription} (h : c.describeClass name = .ok d) :
    CapturedClass name d := by
  obtain ⟨p, found, rfl⟩ := describeClass_cases h
  refine ⟨rfl, legal.own, (legal.superTypes found.types).1, fun kind m mem => ?_, fun use mem => ?_,
    fun names mem => ?_, fun names mem => ?_, rfl⟩
  · rw [Parts.members_description] at mem
    obtain ⟨n, inParts, rfl⟩ := ClassDescription.mem_sortMembers.1 mem
    obtain ⟨filed, declaring, direct, uses, shape⟩ := legal.member found inParts
    exact ⟨filed, declaring, direct, fun use inMember => uses use ((List.mergeSort_perm _ _).mem_iff.1 inMember),
      shape.imp id fun ⟨nested, qualified, filled, word⟩ => ⟨nested, qualified, filled, word⟩⟩
  · exact describeUses_printable found.annotations legal.uses use ((List.mergeSort_perm _ _).mem_iff.1 mem)
  · have kept : (some (.ofList (p.fields.filterMap Sum.getLeft?))).filter (!·.isEmpty) = some names := mem
    obtain rfl := Option.some.inj (Option.filter_eq_some_iff.1 kept).1
    refine hiddenWellFormed_of_identifiers fun text inside => ?_
    obtain ⟨one, inFields, left⟩ := List.mem_filterMap.1 (Ordered.Set.mem_ofList.1 inside)
    obtain rfl := Sum.getLeft?_eq_some_iff.1 left
    obtain ⟨entry, inFile, described⟩ := exists_of_mem_mapM found.fields inFields
    obtain ⟨fieldName, read, ⟨-, same⟩ | ⟨-, n, other, -⟩⟩ := fieldOrName_cases described
    · obtain rfl := Sum.inl.inj same
      simpa using (legal.fields entry inFile).1 fieldName read
    · cases other
  · have kept : (some p.nested.hidden).filter (!·.isEmpty) = some names := mem
    obtain rfl := Option.some.inj (Option.filter_eq_some_iff.1 kept).1
    refine hiddenWellFormed_of_identifiers fun text inside => ?_
    obtain ⟨rows, table, walk⟩ := found.nested
    rcases hidden_of_foldlM walk inside with none | ⟨row, inRows, simple, read, rfl⟩
    · cases none
    · simpa using (legal.nested rows table row inRows).1 simple read

variable {d : ClassDescription}

/-- The name of a nested class on its line is one token. -/
theorem ShownNested.token {m : Member} (h : ShownNested name m) :
    IsToken (nestedToken name m.name.toList) ∧ SingleLine (nestedToken name m.name.toList) := by
  have plain : Renders [' '] (nestedToken name m.name.toList) (nestedToken name m.name.toList) := by
    refine .word fun c mem => ?_
    rcases h.qualified.parts c (mem_of_mem_nestedToken mem) with part | rfl
    · exact ⟨.inl part, fun space => (notMem_of_isNamePart part).2 (by simp_all)⟩
    · exact ⟨.inr (by decide), by decide⟩
  exact ⟨⟨h.filled, plain.clear⟩, plain.plain.2⟩

/-- A class that can be written is printable under the names under which its nested classes are read back. -/
theorem CapturedClass.printable (h : CapturedClass name d) {active : Feature → Bool} :
    (d.qualified.project active).Printable := by
  have named : d.qualified.name = String.ofList name := h.named
  refine ClassDescription.printable_project (by simpa [named] using h.own) h.parameters (fun kind m' mem => ?_)
    h.uses h.hiddenFields h.hiddenClasses h.noModule
  rw [ClassDescription.declared_qualified, List.mem_map] at mem
  obtain ⟨m, declared, rfl⟩ := mem
  obtain ⟨filed, -, direct, uses, shape⟩ := h.members kind m (List.mem_filter.1 declared).1
  rw [named, h.named]
  rcases shape with ⟨other, shape⟩ | shown
  · rw [Member.inClass_of_ne other]
    have isDirect : ∀ b, m.detail = .superinterface b → b = true := by
      intro b same
      rw [Member.isDirect, same] at direct
      exact direct
    have inner := ClassDescription.sound_inner (c := d.qualified) h.parameters shape
    obtain ⟨sound, single⟩ := @soundDetail_kept active _ inner _ _ _ shape isDirect
    exact ⟨filed, sound, single, uses⟩
  · obtain ⟨token, single⟩ := shown.token
    rw [Member.inClass_of_nested shown.nested, String.toList_ofList]
    refine ⟨filed, ?_, ?_, uses⟩
    · simp only [Member.project, shown.nested]
      exact ⟨_, rfl, token, shown.word⟩
    · simp only [Member.project, shown.nested]
      intro simple same
      have back : nestedToken name m.name.toList = simple := by
        have chars := congrArg String.toList same
        simpa [Detail.keptName] using chars
      exact back ▸ single

/-- A class that can be written declares all of its members. -/
theorem CapturedClass.declared (h : CapturedClass name d) (kind : MemberKind) : d.declared kind = d.members kind := by
  rw [ClassDescription.declared, List.filter_eq_self]
  intro m mem
  have captured := h.members kind m mem
  simp [captured.declaring, captured.direct, h.named]

/-- The block of a class that can be written is read back. -/
theorem CapturedClass.readAll (h : CapturedClass name d) :
    ∃ lines e r, (Writer.ofFormat .v43).classLines d = .ok lines ∧
      (Reader.ofFormat .v43 (ofText ((Writer.ofFormat .v43).header ++
        (lines.map String.toList ++ [[]]).flatMap Writer.lined))).readAll = (.ok [e], r) ∧
      e.name = d.name ∧ ∀ kind, (e.members kind).length = (d.members kind).length := by
  let w := Writer.ofFormat .v43
  have all : ∀ x, w.hasFeature x = true := by
    intro x
    cases x <;> decide
  have erases : d.qualified.ErasesThrows w.hasFeature := fun left => by simp [all] at left
  let e := (d.qualified.project w.hasFeature).arrange
  have noModule : e.moduleInfo = none := h.noModule
  have kept : [d.qualified].filterMap (ClassDescription.project? w.hasFeature) =
      [d.qualified.project w.hasFeature] := by
    simp [ClassDescription.project?_of_class w.hasFeature (c := d.qualified) h.noModule]
  have each : ∀ c ∈ [d.qualified], c.moduleInfo = none → c.ErasesThrows w.hasFeature := by
    intro c mem _
    obtain rfl := List.mem_singleton.1 mem
    exact erases
  obtain ⟨-, r, read, -⟩ := readAll_of_writeAll (w := w) (by decide) rfl (fun x mem => mem) rfl
    (by simp [w, Writer.ofFormat]) (by simp [Writer.copyrightTexts, w, Writer.ofFormat]) each (fun c mem => by
      rw [kept] at mem
      obtain rfl := List.mem_singleton.1 mem
      exact .ofClass h.printable (ClassDescription.carried_project _))
  have lines := Writer.classLines_project (w := w) (c := d.qualified) rfl erases
  rw [Writer.classLines_qualified] at lines
  refine ⟨_, e, r, lines, ?_, rfl, fun kind => ?_⟩
  · rw [kept] at read
    have text : ((fileLines w ([e].map ClassDescription.lines)).flatMap Writer.lined) = w.header ++
        (((e.headerText :: e.bodyLines).map String.ofList).map String.toList ++ [[]]).flatMap Writer.lined := by
      rw [Writer.header_eq, fileLines, List.flatMap_append]
      simp [e, ClassDescription.lines, noModule]
    rw [← text]
    exact read
  · rw [ClassDescription.members_arrange, ClassDescription.length_arrangeMembers, ClassDescription.members_project,
      List.length_map, ClassDescription.declared_qualified, List.length_map, h.declared]

/-- **What is captured can be read back.** The class that a class file with legal names describes has a block,
and the file of the block is read as one class of its name with as many members of each kind. -/
theorem readAll_of_parse {bytes : List UInt8} (h : parse bytes = .ok d) {rest : List UInt8}
    (decoded : decode bytes = .ok (c, rest)) (named : c.pool.className c.thisClass = .ok name)
    (noModule : isSet c.flags moduleFlag = false) (legal : c.LegalNames name) :
    ∃ lines e r, (Writer.ofFormat .v43).classLines d = .ok lines ∧
      (Reader.ofFormat .v43 (ofText ((Writer.ofFormat .v43).header ++
        (lines.map String.toList ++ [[]]).flatMap Writer.lined))).readAll = (.ok [e], r) ∧
      e.name = d.name ∧ ∀ kind, (e.members kind).length = (d.members kind).length := by
  obtain ⟨c', rest', name', decoded', named', described⟩ := parse_cases h
  obtain ⟨rfl, rfl⟩ := Prod.mk.inj (Except.ok.inj (decoded.symm.trans decoded'))
  obtain rfl := Except.ok.inj (named.symm.trans named')
  rw [describe, noModule] at described
  exact (legal.captured described).readAll

/-- The class file of `a.B` with a public nested class of this simple name. -/
def nestedFile (simple : String) : ClassFile :=
  let text (s : String) : Option PoolEntry := some (.text (s.toList.flatMap String.utf8EncodeChar))
  { minor := 0
    major := 52
    pool := [text "a/B", some (.classRef 1), text "java/lang/Object", some (.classRef 3), text ("a/B$" ++ simple),
      some (.classRef 5), text simple, text "InnerClasses"]
    flags := 0x21
    thisClass := 2
    superclass := 4
    interfaces := []
    fields := []
    methods := []
    attributes := [⟨8, encodeCounted NestedRow.encode [⟨6, 2, 7, 1⟩]⟩] }

theorem legalNames_nestedFile : (nestedFile "C").LegalNames "a.B".toList := by
  have table : (nestedFile "C").pool.attributeValue? "InnerClasses" (counted NestedRow.decode)
      (nestedFile "C").attributes = .ok (some [⟨6, 2, 7, 1⟩]) := rfl
  have simple : (nestedFile "C").pool.text 7 = .ok "C".toList := rfl
  have inner : (nestedFile "C").pool.className 6 = .ok "a.B$C".toList := rfl
  have above : (nestedFile "C").pool.className 4 = .ok "java.lang.Object".toList := rfl
  have noSignature : (nestedFile "C").pool.attributeText? "Signature" (nestedFile "C").attributes = .ok none := rfl
  have noUses : (nestedFile "C").pool.attributeValue? usesAttribute (counted decodeUse)
      (nestedFile "C").attributes = .ok none := rfl
  have noPlaced : (nestedFile "C").pool.attributeValue? placedUsesAttribute (counted PlacedUse.decode)
      (nestedFile "C").attributes = .ok none := rfl
  refine ⟨⟨.of_pieces (by decide), by unfold NotKeyword; decide⟩, fun text s found => ?_, fun index mem other found => ?_,
    fun rows found row mem => ?_, ⟨fun uses found => ?_, fun placed found => ?_⟩, nofun, nofun⟩
  · rw [noSignature] at found
    cases found
  · obtain rfl : index = 4 := by simpa [nestedFile] using mem
    rw [above] at found
    obtain rfl := Except.ok.inj found
    exact ⟨.of_pieces (by decide), by unfold NotKeyword; decide⟩
  · rw [table] at found
    obtain rfl := Except.ok.inj found
    obtain rfl := List.mem_singleton.1 mem
    refine ⟨fun name read => ?_, fun other shows => ?_⟩
    · obtain rfl := Except.ok.inj (simple.symm.trans read)
      decide
    · obtain rfl := Except.ok.inj (inner.symm.trans shows.nested)
      exact ⟨.of_pieces (by decide), by decide, by unfold NotKeyword; decide⟩
  · rw [noUses] at found
    obtain rfl := Except.ok.inj found
    simp
  · rw [noPlaced] at found
    obtain rfl := Except.ok.inj found
    simp

/-- A class with a nested class is read back with it. -/
theorem readAll_of_parse_nestedFile : ∃ d lines e r, parse (nestedFile "C").encode = .ok d ∧
    (Writer.ofFormat .v43).classLines d = .ok lines ∧
    (Reader.ofFormat .v43 (ofText ((Writer.ofFormat .v43).header ++
      (lines.map String.toList ++ [[]]).flatMap Writer.lined))).readAll = (.ok [e], r) ∧
    e.name = "a.B" ∧ (e.members .nested).length = 1 := by
  obtain ⟨d, parsed⟩ : ∃ d, parse (nestedFile "C").encode = .ok d := ⟨_, rfl⟩
  have few : (parse (nestedFile "C").encode).toOption.map (fun d => (d.name, d.nested.length)) = some ("a.B", 1) := by
    decide +kernel
  have decoded : decode (nestedFile "C").encode = .ok (nestedFile "C", []) := rfl
  have named : (nestedFile "C").pool.className (nestedFile "C").thisClass = .ok "a.B".toList := rfl
  obtain ⟨lines, e, r, written, read, name, members⟩ :=
    readAll_of_parse parsed decoded named (by decide) legalNames_nestedFile
  rw [parsed] at few
  obtain ⟨called, one⟩ := Prod.mk.inj (Option.some.inj few)
  exact ⟨d, lines, e, r, parsed, written, read, name.trans called, (members .nested).trans one⟩

/-- A nested class called like a modifier is written to a line on which it is missing. -/
theorem readAll_ne_ok_nestedFile : ∃ d lines, parse (nestedFile "annotation").encode = .ok d ∧
    (Writer.ofFormat .v43).classLines d = .ok lines ∧
    ∃ fault r, (Reader.ofFormat .v43 (ofText ((Writer.ofFormat .v43).header ++
      (lines.map String.toList ++ [[]]).flatMap Writer.lined))).readAll = (.error fault, r) := by
  obtain ⟨d, parsed⟩ : ∃ d, parse (nestedFile "annotation").encode = .ok d := ⟨_, rfl⟩
  have written : (parse (nestedFile "annotation").encode).toOption.map (Writer.ofFormat .v43).classLines =
      some (.ok ["CLSS public a.B", "SUPR java.lang.Object", "INNER public annotation"]) := by
    decide +kernel
  rw [parsed] at written
  exact ⟨d, _, parsed, Option.some.inj written, _, _, rfl⟩

end ClassFile
end ApiSurface
