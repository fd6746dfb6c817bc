import ApiSurface.Proofs.ClassFile.Described
import ApiSurface.Proofs.JavaType.Lexical
import ApiSurface.Proofs.SignatureFile.Projection

/-!
Lines without generics. The types of a member come from its signature and are erased as text; where the
signature agrees with the descriptor by the rules of the language, the line has the types of the descriptor.
Main statement: every field and every method of a class file has such a line (`Writer.classLines_plain`).
-/

namespace ApiSurface

open ApiSurface.Text ApiSurface.Line

/-! ### Any number of arguments -/

namespace ClassFile

theorem stripGenerics_dots (t : JavaType) (legal : t.Legal) :
    stripGenerics (t.render ++ ['.', '.', '.']) = stripGenerics (JavaType.array t).render := by
  have array : (JavaType.array t).Legal := legal
  rw [stripGenerics_append legal, stripGenerics_render array]
  rfl

theorem stripGenerics_comma (cs : List Char) : stripGenerics (',' :: cs) = ',' :: stripGenerics cs := by
  simp [stripGenerics, dropArguments, spellArrays_cons]

theorem variadic_ne_nil (a : List Char) (more : List (List Char)) : variadic (a :: more) ≠ [] := by
  cases more with
  | nil =>
    unfold variadic
    split <;> simp
  | cons b more => simp [variadic]

/-- Only an array ends like one. -/
theorem beforeTail?_render {t : JavaType} (legal : t.Legal) (array : t.isArray = false) :
    beforeTail? ['[', ']'] t.render = none := by
  by_contra some
  obtain ⟨front, shape⟩ := Option.ne_none_iff_exists'.1 some
  have ends := getLast?_render legal array
  rw [beforeTail?_eq_some_iff.1 shape] at ends
  simp at ends

theorem variadic_singleton {t : JavaType} (legal : t.Legal) :
    stripGenerics (join [','] (variadic [t.render])) = t.erased := by
  cases array : t.isArray with
  | false =>
    rw [variadic, beforeTail?_render legal array]
    simpa using stripGenerics_render legal
  | true =>
    cases t with
    | array element =>
      have some : beforeTail? ['[', ']'] (JavaType.array element).render = some element.render :=
        beforeTail?_append _ _
      rw [variadic, some]
      simpa [stripGenerics_render legal] using stripGenerics_dots element legal
    | _ => cases array

/-- A list whose last array takes any number of values is erased like any other. -/
theorem stripGenerics_variadic {ts : List JavaType} (legal : ∀ t ∈ ts, t.Legal) :
    stripGenerics (join [','] (variadic (ts.map JavaType.render))) = stripGenerics (renderTypes ts) := by
  induction ts with
  | nil => rfl
  | cons t ts ih =>
    have later := ih fun u mem => legal u (by simp [mem])
    have first := legal t (by simp)
    cases ts with
    | nil => simpa [renderTypes, stripGenerics_render first] using variadic_singleton first
    | cons u ts =>
      cases list : variadic ((u :: ts).map JavaType.render) with
      | nil => exact absurd list (variadic_ne_nil _ _)
      | cons a more =>
        rw [list] at later
        have whole : variadic ((t :: u :: ts).map JavaType.render) = t.render :: a :: more := by
          rw [← list]
          rfl
        rw [whole, renderTypes, List.map_cons, List.map_cons, join_cons_cons, join_cons_cons, ← List.map_cons,
          ← renderTypes, List.append_assoc, List.append_assoc, stripGenerics_append first,
          stripGenerics_append first, List.singleton_append, List.singleton_append, stripGenerics_comma,
          stripGenerics_comma, later]

end ClassFile

/-! ### Lines of members -/

namespace Writer

variable {w : Writer} {d : ClassDescription} {lines : List String}

/-- Every member that a class declares has its line. -/
theorem exists_line_of_declared (h : w.classLines d = .ok lines) {kind : MemberKind} {m : Member}
    (noSuper : kind ≠ .superclass) (mem : m ∈ d.declared kind) :
    ∃ line ∈ lines, LegacyRule.encodeAll d.name w.format.rules (formatMember w.style d.scope d.name m) =
      .ok line.toList := by
  unfold classLines at h
  obtain ⟨header, -, h⟩ := bind_eq_ok_iff.1 h
  obtain ⟨blocks, each, h⟩ := bind_eq_ok_iff.1 h
  obtain rfl := Except.ok.inj h
  have listed : kind ∈ MemberKind.writeOrder := by cases kind <;> decide
  obtain ⟨block, inBlocks, ofKind⟩ := exists_mem_of_mapM each listed
  rw [kindLines, if_neg (fun null => noSuper null.1)] at ofKind
  obtain ⟨found, all, rfl⟩ := map_eq_ok_iff.1 ofKind
  obtain ⟨⟨line, uses⟩, inFound, ofMember⟩ := exists_mem_of_mapM all mem
  obtain ⟨text, encoded, same⟩ := map_eq_ok_iff.1 ofMember
  obtain ⟨rfl, -⟩ := Prod.mk.inj same
  refine ⟨String.ofList text, ?_, by simpa [ClassDescription.scope] using encoded⟩
  have inBlock : String.ofList text ∈ (found.mergeSort blockLe).flatMap fun entry => entry.1 :: entry.2 :=
    List.mem_flatMap.2 ⟨_, (List.mergeSort_perm _ _).mem_iff.2 inFound, by simp⟩
  have inMembers := List.mem_flatten.2 ⟨_, inBlocks, inBlock⟩
  simp [inMembers]

/-- In the spelling of today every class has lines. -/
theorem exists_classLines (rules : w.format.rules = []) (d : ClassDescription) :
    ∃ lines, w.classLines d = .ok lines := by
  have noNull : w.format.hasRule .nullSuper = false := by simp [Format.hasRule, rules]
  have each (kind : MemberKind) : ∃ block, w.kindLines d d.scope kind = .ok block := by
    have members : ∀ m ∈ d.declared kind, w.memberBlock d d.scope m = .ok _ := fun m _ => by
      rw [memberBlock, rules, LegacyRule.encodeAll]
      rfl
    simp only [kindLines, noNull, Bool.false_eq_true, and_false, if_false, mapM_ok members, map_ok]
    exact ⟨_, rfl⟩
  choose block ofKind using each
  have scope : Erasure.empty.nest (d.typeParameters.map String.toList) = d.scope := rfl
  have members := mapM_ok fun kind (_ : kind ∈ MemberKind.writeOrder) => ofKind kind
  simp only [classLines, scope, rules, LegacyRule.encodeAll, ok_bind, members]
  exact ⟨_, rfl⟩

end Writer

/-- The line of a member with these tokens after its modifiers. -/
def memberLine (kind : MemberKind) (modifiers : Modifiers) (tokens : List (List Char)) : List Char :=
  joinTokens ([kind.tag.toList] ++ keywordTokens modifiers ++ tokens)

/-- Tokens that are empty are not written. -/
theorem joinTokens_nil_cons (before after : List (List Char)) :
    joinTokens (before ++ [] :: after) = joinTokens (before ++ after) := by
  simp [joinTokens]

/-- Without generics a field line has the erased type. -/
theorem formatMember_field {style : LineStyle} (plain : style.generics = false) (scope : Erasure)
    (className declaring name type : String) (modifiers : Modifiers) (uses : List AnnotationUse)
    (constant : Option String) : ∃ more,
      formatMember style scope className ⟨declaring, name, modifiers.visible, uses, .field type constant⟩ =
        memberLine .field modifiers ([scope.erase type.toList, name.toList] ++ more) := by
  refine ⟨if style.constants then (constant.map fun c => '=' :: ' ' :: c.toList).toList else [], ?_⟩
  simp only [formatMember, detailTokens, styled, plain, Bool.false_eq_true, if_false, keywordTokens_visible,
    Detail.typeParameters?, Option.map_none, Erasure.nest]
  rfl

/-- Without generics a method line has the erased types and no type parameters. -/
theorem formatMember_method {style : LineStyle} (plain : style.generics = false) (scope : Erasure)
    (className declaring name result arguments : String) (modifiers : Modifiers) (uses : List AnnotationUse)
    (parameters : Option String) (throws : List String) (default : Option String) : ∃ more,
      formatMember style scope className
          ⟨declaring, name, modifiers.visible, uses, .method parameters result arguments throws default⟩ =
        memberLine .method modifiers
          ([(scope.nest (parameters.map String.toList)).erase result.toList,
            callToken name.toList ((scope.nest (parameters.map String.toList)).erase arguments.toList)] ++ more) := by
  refine ⟨throwsTokens style (scope.nest (parameters.map String.toList)) throws ++
    (default.map fun value => defaultWord ++ ' ' :: value.toList).toList, ?_⟩
  simp only [formatMember, detailTokens, styled, plain, Bool.false_eq_true, if_false, keywordTokens_visible,
    Detail.typeParameters?, parametersToken, List.cons_append, List.nil_append]
  exact joinTokens_nil_cons ([MemberKind.method.tag.toList] ++ keywordTokens modifiers) _

/-- Arguments are erased the same whether the last array takes any number of values or not. -/
theorem erase_argumentsText {modifiers : Modifiers} {texts : ClassFile.MethodTypes} {ts : List JavaType}
    (legal : ∀ t ∈ ts, t.Legal) (same : texts.arguments = ts.map JavaType.render) (scope : Erasure) :
    scope.erase (ClassFile.argumentsText modifiers texts).toList = scope.erase (renderTypes ts) := by
  rw [ClassFile.argumentsText, String.toList_ofList, same]
  split
  · rw [Erasure.erase_eq, ClassFile.stripGenerics_variadic legal, ← Erasure.erase_eq]
  · rfl

/-! ### Signatures and descriptors -/

namespace ClassFile

/-- The type of a field by its descriptor. -/
def descriptorType (pool : Pool) (entry : MemberEntry) : Except ClassFault JavaType := do
  liftDescriptor Descriptor.ofField (← pool.text entry.descriptor)

/-- The types of a method by its descriptor. -/
def descriptorTypes (pool : Pool) (entry : MemberEntry) : Except ClassFault MethodSignature := do
  liftDescriptor Descriptor.ofMethod (← pool.text entry.descriptor)

/-- The type parameters of a class by its signature. -/
def classParameters (c : ClassFile) : Except ClassFault (Option (List TypeParameter)) := do
  match ← c.pool.attributeText? "Signature" c.attributes with
  | some text => return (← liftDescriptor Descriptor.ofClass text).parameters
  | none => return none

theorem superTypes_typeParameters {c : ClassFile} {types : SuperTypes} (h : c.superTypes = .ok types) :
    ∃ ps, c.classParameters = .ok ps ∧
      types.typeParameters = ps.map fun ps => String.ofList (renderParameters ps) := by
  unfold superTypes at h
  obtain ⟨found, given, h⟩ := bind_eq_ok_iff.1 h
  rw [classParameters, given, ok_bind]
  cases found with
  | some text =>
    obtain ⟨signature, read, h⟩ := bind_eq_ok_iff.1 h
    obtain rfl := Except.ok.inj h
    exact ⟨signature.parameters, bind_eq_ok_iff.2 ⟨signature, read, rfl⟩, rfl⟩
  | none =>
    refine ⟨none, rfl, ?_⟩
    extract_lets rest at h
    obtain ⟨superclass, h⟩ : ∃ superclass, rest superclass = .ok types := by
      by_cases top : c.superclass = 0
      · rw [if_pos top] at h
        exact ⟨none, h⟩
      · rw [if_neg top] at h
        obtain ⟨superclass, -, h⟩ := bind_eq_ok_iff.1 h
        exact ⟨superclass, h⟩
    obtain ⟨interfaces, -, h⟩ := bind_eq_ok_iff.1 h
    obtain rfl := Except.ok.inj h
    rfl

/-- A field whose signature is erased to its descriptor by the rules of the language: its type and that of the
descriptor, in a class with these type parameters. -/
structure FieldAgrees (c : ClassFile) (entry : MemberEntry) (class' : Option (List TypeParameter))
    (type plain : JavaType) : Prop where
  parameters : c.classParameters = .ok class'
  signature : declaredType c.pool entry = .ok type
  descriptor : descriptorType c.pool entry = .ok plain
  erases : Erases [class'.getD []] type plain

/-- A method whose signature is erased to its descriptor by the rules of the language. -/
structure MethodAgrees (c : ClassFile) (entry : MemberEntry) (class' : Option (List TypeParameter))
    (types plain : MethodSignature) : Prop where
  parameters : c.classParameters = .ok class'
  signature : declaredTypes c.pool entry = .ok types
  descriptor : descriptorTypes c.pool entry = .ok plain
  result : Erases [types.parameters.getD [], class'.getD []] types.result plain.result
  arguments : List.Forall₂ (Erases [types.parameters.getD [], class'.getD []]) types.arguments plain.arguments

/-- Types in whose text the variables in scope are told from everything else: names are names, and no word of
an erased type is the name of a variable. -/
structure ToldApart (method class' : List TypeParameter) (types plain : List JavaType) : Prop where
  declared : Declared method class'
  legal : ∀ t ∈ types, t.Legal
  apart : ∀ u ∈ plain, ∀ p ∈ method ++ class', ¬Erasure.IsWordOf p.name u.render

/-- Fewer types where fewer variables are in scope are told apart as well. -/
theorem ToldApart.of_subset {method fewer class' : List TypeParameter} {types plain : List JavaType}
    (h : ToldApart method class' types plain) (sub : fewer ⊆ method) {types' plain' : List JavaType}
    (less : types' ⊆ types) (less' : plain' ⊆ plain) : ToldApart fewer class' types' plain' := by
  have sub' : fewer ++ class' ⊆ method ++ class' := List.append_subset.2
    ⟨fun p mem => List.mem_append_left _ (sub mem), List.subset_append_right _ _⟩
  exact ⟨⟨fun p mem => h.declared.named p (sub' mem), fun p mem => h.declared.letters p (sub' mem),
      fun p mem name bound q inMethod => h.declared.stay p mem name bound q (sub inMethod)⟩,
    fun t mem => h.legal t (less mem), fun u mem p inList => h.apart u (less' mem) p (sub' inList)⟩

variable {c : ClassFile} {name : List Char} {d : ClassDescription} {entry : MemberEntry}
  {class' : Option (List TypeParameter)}

/-- What is found of a kind is declared. -/
theorem arrange_mem_declared {p : Parts} {className : String} {kind : MemberKind} (noSuper : kind ≠ .superclass)
    {m : Member} (mem : m ∈ p.members className kind) (own : m.declaringClass = className)
    (direct : m.isDirect) : m.arrange ∈ (p.description className).declared kind := by
  have members : (p.description className).members kind =
      ClassDescription.sortMembers (p.members className kind) := by
    cases kind with
    | superclass => exact absurd rfl noSuper
    | _ => rfl
  rw [ClassDescription.declared, members, List.mem_filter]
  refine ⟨ClassDescription.mem_sortMembers.2 ⟨m, mem, rfl⟩, ?_⟩
  have same : m.arrange.declaringClass = (p.description className).name := own
  have direct' : m.arrange.isDirect := direct
  simp [same, direct']

/-- The type variables in scope are those of the signature of the class. -/
theorem scope_description {p : Parts} (found : p.FoundIn c name) (parameters : c.classParameters = .ok class')
    (className : String) :
    (p.description className).scope = Erasure.empty.nest (class'.map renderParameters) := by
  obtain ⟨ps, read, same⟩ := superTypes_typeParameters found.types
  obtain rfl := Except.ok.inj (parameters.symm.trans read)
  have declared : (p.description className).typeParameters = p.types.typeParameters := rfl
  rw [ClassDescription.scope, declared, same, Option.map_map]
  simp [Function.comp_def]

end ClassFile

namespace Writer

open ClassFile

variable {w : Writer} {c : ClassFile} {name : List Char} {d : ClassDescription} {lines : List String}
  {entry : MemberEntry} {class' : Option (List TypeParameter)}

/-- The line of a field has the type of the descriptor. -/
theorem exists_line_of_field (described : c.describeClass name = .ok d) (written : w.classLines d = .ok lines)
    (noGenerics : w.hasFeature .tigerInfo = false) (mem : entry ∈ c.fields)
    (accessible : (modifiersOf fieldFlags entry.flags).isHidden = false) {type plain : JavaType}
    (agrees : c.FieldAgrees entry class' type plain) (apart : ToldApart [] (class'.getD []) [type] [plain]) :
    ∃ fieldName, c.pool.text entry.name = .ok fieldName ∧ ∃ line ∈ lines, ∃ more,
      LegacyRule.encodeAll d.name w.format.rules (memberLine .field (modifiersOf fieldFlags entry.flags)
        ([plain.render, fieldName] ++ more)) = .ok line.toList := by
  obtain ⟨p, found, rfl⟩ := describeClass_cases described
  obtain ⟨entryFound, inFields, named⟩ := exists_mem_of_mapM found.fields mem
  obtain ⟨fieldName, text, ⟨hidden, -⟩ | ⟨-, m, rfl, field⟩⟩ := fieldOrName_cases named
  · simp [accessible] at hidden
  obtain ⟨type', constant, uses, read, -, -, same⟩ := describeField_cases field
  obtain rfl := Except.ok.inj (agrees.signature.symm.trans read)
  have inMembers : m ∈ p.members (String.ofList name) .field := List.mem_filterMap.2 ⟨_, inFields, rfl⟩
  obtain ⟨line, inLines, encoded⟩ := exists_line_of_declared written (by decide)
    (arrange_mem_declared (by decide) inMembers (by rw [same]) (by rw [same]; rfl))
  have scope : (p.description (String.ofList name)).scope = Erasure.ofLists [] (class'.getD []) := by
    have ofClass : (Erasure.empty.nest (class'.map renderParameters)).nest
        ((none : Option (List TypeParameter)).map renderParameters) = Erasure.ofLists [] (class'.getD []) :=
      Erasure.nest_nest_render apart.declared.named
    rw [scope_description found agrees.parameters, ← ofClass]
    rfl
  have erased := Erasure.erase_render apart.declared agrees.erases.under_nil (apart.legal _ (by simp))
    (apart.apart _ (by simp))
  have style : w.style.generics = false := noGenerics
  obtain ⟨more, shape⟩ := formatMember_field style
    (p.description (String.ofList name)).scope (p.description (String.ofList name)).name (String.ofList name)
    (String.ofList fieldName) (String.ofList type.render) (modifiersOf fieldFlags entry.flags)
    (ClassDescription.sortAnnotations uses) (constant.map String.ofList)
  rw [scope, String.toList_ofList, String.toList_ofList, erased] at shape
  refine ⟨fieldName, text, line, inLines, more, ?_⟩
  rw [← shape, ← scope, ← encoded, same]
  rfl

/-- The line of a method has the types of the descriptor, also where any number of arguments is taken. -/
theorem exists_line_of_method (described : c.describeClass name = .ok d) (written : w.classLines d = .ok lines)
    (noGenerics : w.hasFeature .tigerInfo = false) (mem : entry ∈ c.methods)
    (accessible : (modifiersOf methodFlags entry.flags).isHidden = false) {methodName : List Char}
    (named : c.pool.text entry.name = .ok methodName) (noConstructor : methodName ≠ constructorName)
    (noClassInit : methodName ≠ classInitName) {types plain : MethodSignature}
    (agrees : c.MethodAgrees entry class' types plain)
    (apart : ToldApart (types.parameters.getD []) (class'.getD []) (types.result :: types.arguments)
      (plain.result :: plain.arguments)) :
    ∃ line ∈ lines, ∃ more, LegacyRule.encodeAll d.name w.format.rules
      (memberLine .method (modifiersOf methodFlags entry.flags)
        ([plain.result.render, callToken methodName (renderTypes plain.arguments)] ++ more)) =
          .ok line.toList := by
  obtain ⟨p, found, rfl⟩ := describeClass_cases described
  obtain ⟨entryFound, inMethods, method⟩ := exists_mem_of_mapM found.methods mem
  obtain ⟨methodName', text, ⟨left, -⟩ | ⟨-, -, m, rfl, method⟩⟩ := accessibleMethod?_cases method
  all_goals obtain rfl := Except.ok.inj (named.symm.trans text)
  · simp [accessible, noClassInit] at left
  obtain ⟨texts, default, -, uses, read, -, -, -, ⟨constructs, -⟩ | ⟨-, same⟩⟩ := describeMethod_cases method
  · exact absurd constructs noConstructor
  obtain ⟨types', declared, parameters, arguments, result, -⟩ := methodTypes_cases read
  obtain rfl := Except.ok.inj (agrees.signature.symm.trans declared)
  have inMembers : m ∈ p.members (String.ofList name) .method := by
    have kind : m.kind = .method := by rw [same]; rfl
    simpa [Parts.members, kind] using inMethods
  obtain ⟨line, inLines, encoded⟩ := exists_line_of_declared written (by decide)
    (arrange_mem_declared (by decide) inMembers (by rw [same]) (by rw [same]; rfl))
  have scope : (p.description (String.ofList name)).scope.nest (texts.typeParameters.map String.toList) =
      Erasure.ofLists (types.parameters.getD []) (class'.getD []) := by
    rw [scope_description found agrees.parameters, parameters, Option.map_map]
    have back : String.toList ∘ (fun ps : List TypeParameter => String.ofList (renderParameters ps)) =
        renderParameters := by
      funext ps
      simp
    rw [back]
    exact Erasure.nest_nest_render apart.declared.named
  have erasedResult := Erasure.erase_render apart.declared agrees.result (apart.legal _ (by simp))
    (apart.apart _ (by simp))
  have legal : ∀ t ∈ types.arguments, t.Legal := fun t inList => apart.legal t (by simp [inList])
  have erasedArguments := Erasure.erase_renderTypes apart.declared agrees.arguments legal
    fun u inList => apart.apart u (by simp [inList])
  have style : w.style.generics = false := noGenerics
  obtain ⟨more, shape⟩ := formatMember_method style (p.description (String.ofList name)).scope
    (p.description (String.ofList name)).name (String.ofList name) (String.ofList methodName) texts.result
    (argumentsText (modifiersOf methodFlags entry.flags) texts) (modifiersOf methodFlags entry.flags)
    (ClassDescription.sortAnnotations uses) texts.typeParameters texts.throws default
  rw [scope, erase_argumentsText legal arguments, erasedArguments, result, String.toList_ofList,
    String.toList_ofList, erasedResult] at shape
  refine ⟨line, inLines, more, ?_⟩
  rw [← shape, ← encoded, same, ← result]
  rfl

/-- Without generics the lines of the fields and methods of a class file have the types of their descriptors,
wherever the signatures agree with them and the variables in scope are told from other names. In the spelling
of today the lines are as shown, in an old one they are respelled. -/
theorem classLines_plain {bytes rest : List UInt8} (decoded : ClassFile.decode bytes = .ok (c, rest))
    (parsed : ClassFile.parse bytes = .ok d) (noModule : isSet c.flags moduleFlag = false)
    (noGenerics : w.hasFeature .tigerInfo = false) :
    (w.format.rules = [] → ∃ lines, w.classLines d = .ok lines) ∧
    ∀ lines, w.classLines d = .ok lines →
      (∀ entry ∈ c.fields, (modifiersOf fieldFlags entry.flags).isHidden = false →
        ∀ class' type plain, c.FieldAgrees entry class' type plain →
          ToldApart [] (class'.getD []) [type] [plain] →
          ∃ fieldName, c.pool.text entry.name = .ok fieldName ∧ ∃ line ∈ lines, ∃ more,
            LegacyRule.encodeAll d.name w.format.rules (memberLine .field (modifiersOf fieldFlags entry.flags)
              ([plain.render, fieldName] ++ more)) = .ok line.toList) ∧
      ∀ entry ∈ c.methods, (modifiersOf methodFlags entry.flags).isHidden = false →
        ∀ methodName, c.pool.text entry.name = .ok methodName → methodName ≠ constructorName →
          methodName ≠ classInitName →
        ∀ class' types plain, c.MethodAgrees entry class' types plain →
          ToldApart (types.parameters.getD []) (class'.getD []) (types.result :: types.arguments)
            (plain.result :: plain.arguments) →
          ∃ line ∈ lines, ∃ more,
            LegacyRule.encodeAll d.name w.format.rules (memberLine .method (modifiersOf methodFlags entry.flags)
              ([plain.result.render, callToken methodName (renderTypes plain.arguments)] ++ more)) =
                .ok line.toList := by
  obtain ⟨name, described⟩ : ∃ name, c.describeClass name = .ok d := by
    obtain ⟨c', rest', name, decoded', -, described⟩ := parse_cases parsed
    obtain ⟨rfl, rfl⟩ := Prod.mk.inj (Except.ok.inj (decoded.symm.trans decoded'))
    rw [ClassFile.describe, if_neg (by simp [noModule])] at described
    exact ⟨name, described⟩
  exact ⟨fun rules => exists_classLines rules d, fun lines written =>
    ⟨fun entry mem accessible class' type plain agrees apart =>
      exists_line_of_field described written noGenerics mem accessible agrees apart,
    fun entry mem accessible methodName named noConstructor noClassInit class' types plain agrees apart =>
      exists_line_of_method described written noGenerics mem accessible named noConstructor noClassInit agrees
        apart⟩⟩

/-- A writer that leaves generics out. -/
def plainWriter : Writer :=
  { Writer.ofFormat .v43 with features := Format.v43.features.filter (· ≠ .tigerInfo) }

/-- What such a writer writes of the class that bytes describe. -/
def plainLines? (bytes : List UInt8) : Option (List String) :=
  (ClassFile.parse bytes).toOption.bind fun d => (plainWriter.classLines d).toOption

theorem of_plainLines? {bytes : List UInt8} {lines : List String} (h : plainLines? bytes = some lines) :
    ∃ d, ClassFile.parse bytes = .ok d ∧ plainWriter.classLines d = .ok lines := by
  unfold plainLines? at h
  cases parsed : ClassFile.parse bytes with
  | error fault => simp [parsed, Except.toOption] at h
  | ok d =>
    cases written : plainWriter.classLines d with
    | error fault => simp [parsed, written, Except.toOption] at h
    | ok all => exact ⟨d, rfl, by simpa [parsed, written, Except.toOption] using h⟩

end Writer

/-! ### Class files -/

namespace ClassFile

open Writer

/-- The class `Box<T extends Number>` with the field `T value` and the method `<U extends T> U first(U...)`. -/
def boundedBox : ClassFile where
  minor := 0
  major := 52
  pool := [some (.text "Box".toUTF8.toList), some (.classRef 1), some (.text "java/lang/Object".toUTF8.toList),
    some (.classRef 3), some (.text "Signature".toUTF8.toList),
    some (.text "<T:Ljava/lang/Number;>Ljava/lang/Object;".toUTF8.toList), some (.text "value".toUTF8.toList),
    some (.text "Ljava/lang/Number;".toUTF8.toList), some (.text "TT;".toUTF8.toList),
    some (.text "first".toUTF8.toList), some (.text "([Ljava/lang/Number;)Ljava/lang/Number;".toUTF8.toList),
    some (.text "<U:TT;>([TU;)TU;".toUTF8.toList)]
  flags := 0x21
  thisClass := 2
  superclass := 4
  interfaces := []
  fields := [⟨0x1, 7, 8, [⟨5, encode16 9⟩]⟩]
  methods := [⟨0x81, 10, 11, [⟨5, encode16 12⟩]⟩]
  attributes := [⟨5, encode16 6⟩]

/-- A text in which the first letter of a word does not occur does not have the word. -/
theorem not_isWordOf {c : Char} {word text : List Char} (free : c ∉ text) : ¬Erasure.IsWordOf (c :: word) text := by
  rintro ⟨before, after, rfl, -, -⟩
  simp at free

/-- The class of all numbers. -/
def numberType : JavaType := .classType "java/lang/Number".toList none []

/-- The type parameter of the class. -/
def boxed : TypeParameter := ⟨['T'], [numberType]⟩

/-- The type parameter of the method. -/
def chosen : TypeParameter := ⟨['U'], [.variable ['T']]⟩

theorem legal_numberType : numberType.Legal := ⟨.of_pieces (by decide), trivial, trivial⟩

theorem erases_boxed : Erases [[boxed]] (.variable ['T']) numberType := by
  have bound : Erases [[boxed]] numberType numberType := .classType "java/lang/Number".toList none []
  have nothing : ∀ list ∈ ([] : List (List TypeParameter)), ∀ q ∈ list, q.name ≠ ['T'] := by simp
  exact .typeVariable nothing (List.mem_singleton_self boxed) rfl (by simp) rfl bound

theorem erases_chosen : Erases [[chosen], [boxed]] (.variable ['U']) numberType := by
  have outer : Erases [[chosen], [boxed]] (.variable ['T']) numberType := by
    have further : ∀ list ∈ [[chosen]], ∀ q ∈ list, q.name ≠ ['T'] := by simp [chosen]
    have bound : Erases [[boxed]] numberType numberType := .classType "java/lang/Number".toList none []
    exact .typeVariable further (List.mem_singleton_self boxed) rfl (by simp) rfl bound
  have nothing : ∀ list ∈ ([] : List (List TypeParameter)), ∀ q ∈ list, q.name ≠ ['U'] := by simp
  exact .typeVariable nothing (List.mem_singleton_self chosen) rfl (by simp) rfl outer

theorem classParameters_boundedBox : classParameters boundedBox = .ok (some [boxed]) := by
  have text : boundedBox.pool.attributeText? "Signature" boundedBox.attributes =
      .ok (some "<T:Ljava/lang/Number;>Ljava/lang/Object;".toList) := by decide +kernel
  rw [classParameters, text, ok_bind]
  cbv

theorem fieldAgrees_boundedBox : boundedBox.FieldAgrees ⟨0x1, 7, 8, [⟨5, encode16 9⟩]⟩ (some [boxed])
    (.variable ['T']) numberType := by
  have signature : signatureText boundedBox.pool ⟨0x1, 7, 8, [⟨5, encode16 9⟩]⟩ = .ok "TT;".toList := by
    decide +kernel
  have descriptor : boundedBox.pool.text 8 = .ok "Ljava/lang/Number;".toList := by decide +kernel
  refine ⟨classParameters_boundedBox, ?_, ?_, erases_boxed⟩
  · rw [declaredType, signature, ok_bind]
    cbv
  · rw [descriptorType, descriptor, ok_bind]
    cbv

theorem methodAgrees_boundedBox : boundedBox.MethodAgrees ⟨0x81, 10, 11, [⟨5, encode16 12⟩]⟩ (some [boxed])
    ⟨some [chosen], [.array (.variable ['U'])], .variable ['U'], []⟩
    ⟨none, [.array numberType], numberType, []⟩ := by
  have signature : signatureText boundedBox.pool ⟨0x81, 10, 11, [⟨5, encode16 12⟩]⟩ =
      .ok "<U:TT;>([TU;)TU;".toList := by decide +kernel
  have descriptor : boundedBox.pool.text 11 = .ok "([Ljava/lang/Number;)Ljava/lang/Number;".toList := by
    decide +kernel
  refine ⟨classParameters_boundedBox, ?_, ?_, erases_chosen, .cons (.array erases_chosen) .nil⟩
  · rw [declaredTypes, signature, ok_bind]
    cbv
  · rw [descriptorTypes, descriptor, ok_bind]
    cbv

theorem named_boxed : boxed.Named :=
  ⟨⟨by decide, by decide⟩, fun b mem => List.mem_singleton.1 mem ▸ legal_numberType⟩

theorem named_chosen : chosen.Named :=
  ⟨⟨by decide, by decide⟩, fun b mem => List.mem_singleton.1 mem ▸ (⟨by decide, by decide⟩ : IsIdentifier ['T'])⟩

/-- No word of the types that are left is the name of a variable. -/
theorem toldApart_boundedBox : ToldApart [chosen] [boxed] [.variable ['U'], .array (.variable ['U']), .variable ['T']]
    [numberType, .array numberType] := by
  have identifiers : IsIdentifier ['U'] ∧ IsIdentifier ['T'] := by decide
  refine ⟨⟨?_, by decide, ?_⟩, ?_, ?_⟩
  · simpa using ⟨named_chosen, named_boxed⟩
  · intro p mem name bound
    obtain rfl := List.mem_singleton.1 mem
    cases bound
  · intro t mem
    simp only [List.mem_cons, List.not_mem_nil, or_false] at mem
    rcases mem with rfl | rfl | rfl
    · exact identifiers.1
    · exact identifiers.1
    · exact identifiers.2
  · have free : ∀ u ∈ [numberType, .array numberType], 'U' ∉ u.render ∧ 'T' ∉ u.render := by
      simp only [List.mem_cons, List.not_mem_nil, or_false, forall_eq_or_imp, forall_eq]
      decide
    intro u inList p mem
    obtain ⟨noU, noT⟩ := free u inList
    simp only [List.cons_append, List.nil_append, List.mem_cons, List.not_mem_nil, or_false] at mem
    rcases mem with rfl | rfl
    · exact not_isWordOf noU
    · exact not_isWordOf noT

/-- The lines of `Box` have the types of its descriptors. -/
theorem classLines_plain_boundedBox : ∃ d lines, ClassFile.parse boundedBox.encode = .ok d ∧
    plainWriter.classLines d = .ok lines ∧
    (∃ line ∈ lines, ∃ more, memberLine .field (modifiersOf fieldFlags 0x1)
      (["java.lang.Number".toList, "value".toList] ++ more) = line.toList) ∧
    ∃ line ∈ lines, ∃ more, memberLine .method (modifiersOf methodFlags 0x81)
      (["java.lang.Number".toList, "first(java.lang.Number[])".toList] ++ more) = line.toList := by
  have decoded : ClassFile.decode boundedBox.encode = .ok (boundedBox, []) := by decide +kernel
  have written : plainLines? boundedBox.encode = some ["CLSS public Box", "SUPR java.lang.Object",
      "FLD public java.lang.Number value", "METH public java.lang.Number first(java.lang.Number[])"] := by
    decide +kernel
  obtain ⟨d, parsed, written⟩ := of_plainLines? written
  obtain ⟨fields, methods⟩ := (classLines_plain decoded parsed (by decide) (by decide)).2 _ written
  have value : boundedBox.pool.text 7 = .ok "value".toList := by decide +kernel
  have first : boundedBox.pool.text 10 = .ok "first".toList := by decide +kernel
  refine ⟨d, _, parsed, written, ?_, ?_⟩
  · obtain ⟨fieldName, text, line, mem, more, shape⟩ := fields _ (List.mem_singleton_self _) (by decide) _ _ _
      fieldAgrees_boundedBox (toldApart_boundedBox.of_subset (by simp) (by simp) (by simp))
    obtain rfl := Except.ok.inj (value.symm.trans text)
    exact ⟨line, mem, more, Except.ok.inj shape⟩
  · obtain ⟨line, mem, more, shape⟩ := methods _ (List.mem_singleton_self _) (by decide) _ first (by decide)
      (by decide) _ _ _ methodAgrees_boundedBox (toldApart_boundedBox.of_subset (by simp) (by simp) (by simp))
    exact ⟨line, mem, more, Except.ok.inj shape⟩

/-- The class `Outer<T>`. -/
def genericOuter : ClassFile where
  minor := 0
  major := 52
  pool := [some (.text "Outer".toUTF8.toList), some (.classRef 1), some (.text "java/lang/Object".toUTF8.toList),
    some (.classRef 3), some (.text "Signature".toUTF8.toList),
    some (.text "<T:Ljava/lang/Object;>Ljava/lang/Object;".toUTF8.toList)]
  flags := 0x21
  thisClass := 2
  superclass := 4
  interfaces := []
  fields := []
  methods := []
  attributes := [⟨5, encode16 6⟩]

/-- The class `Outer<T>.Inner` with the field `T x`. -/
def innerOfGeneric : ClassFile where
  minor := 0
  major := 52
  pool := [some (.text "Outer$Inner".toUTF8.toList), some (.classRef 1), some (.text "java/lang/Object".toUTF8.toList),
    some (.classRef 3), some (.text "Signature".toUTF8.toList), some (.text "x".toUTF8.toList),
    some (.text "Ljava/lang/Object;".toUTF8.toList), some (.text "TT;".toUTF8.toList)]
  flags := 0x21
  thisClass := 2
  superclass := 4
  interfaces := []
  fields := [⟨0x1, 6, 7, [⟨5, encode16 8⟩]⟩]
  methods := []
  attributes := []

/-- A variable of the class around is not in scope, though the signature of the field means it and is erased to
the descriptor: the line has the variable instead of the type. -/
theorem classLines_ne_plain : ∃ d lines, ClassFile.parse innerOfGeneric.encode = .ok d ∧
    plainWriter.classLines d = .ok lines ∧
    (∃ T type plain, genericOuter.classParameters = .ok (some [T]) ∧
      innerOfGeneric.classParameters = .ok none ∧
      declaredType innerOfGeneric.pool ⟨0x1, 6, 7, [⟨5, encode16 8⟩]⟩ = .ok type ∧
      descriptorType innerOfGeneric.pool ⟨0x1, 6, 7, [⟨5, encode16 8⟩]⟩ = .ok plain ∧
      Erases [[], [T]] type plain ∧ plain.render = "java.lang.Object".toList) ∧
    "FLD public T x" ∈ lines ∧
    ¬∃ line ∈ lines, ∃ more, memberLine .field (modifiersOf fieldFlags 0x1)
      (["java.lang.Object".toList, "x".toList] ++ more) = line.toList := by
  have written : plainLines? innerOfGeneric.encode =
      some ["CLSS public Outer$Inner", "SUPR java.lang.Object", "FLD public T x"] := by decide +kernel
  obtain ⟨d, parsed, written⟩ := of_plainLines? written
  let objectType : JavaType := .classType "java/lang/Object".toList none []
  have outer : genericOuter.classParameters = .ok (some [⟨['T'], [objectType]⟩]) := by
    have text : genericOuter.pool.attributeText? "Signature" genericOuter.attributes =
        .ok (some "<T:Ljava/lang/Object;>Ljava/lang/Object;".toList) := by decide +kernel
    rw [classParameters, text, ok_bind]
    cbv
  have signature : signatureText innerOfGeneric.pool ⟨0x1, 6, 7, [⟨5, encode16 8⟩]⟩ = .ok "TT;".toList := by
    decide +kernel
  have descriptor : innerOfGeneric.pool.text 7 = .ok "Ljava/lang/Object;".toList := by decide +kernel
  have erases : Erases [[], [⟨['T'], [objectType]⟩]] (.variable ['T']) objectType := by
    have bound : Erases [[⟨['T'], [objectType]⟩]] objectType objectType :=
      .classType "java/lang/Object".toList none []
    have further : ∀ list ∈ [([] : List TypeParameter)], ∀ q ∈ list, q.name ≠ ['T'] := by simp
    exact .typeVariable further (List.mem_singleton_self _) rfl (by simp) rfl bound
  refine ⟨d, _, parsed, written, ⟨_, .variable ['T'], objectType, outer, rfl, ?_, ?_, erases, rfl⟩, by simp, ?_⟩
  · rw [declaredType, signature, ok_bind]
    cbv
  · rw [descriptorType, descriptor, ok_bind]
    cbv
  · rintro ⟨line, mem, more, shape⟩
    -- a line with the type of the descriptor would begin like this
    have start : (memberLine .field (modifiersOf fieldFlags 0x1)
        (["java.lang.Object".toList, "x".toList] ++ more)).take 12 = "FLD public j".toList := rfl
    rw [shape] at start
    have other : ∀ line ∈ ["CLSS public Outer$Inner", "SUPR java.lang.Object", "FLD public T x"],
        line.toList.take 12 ≠ "FLD public j".toList := by decide
    exact other line mem start

end ClassFile
end ApiSurface
