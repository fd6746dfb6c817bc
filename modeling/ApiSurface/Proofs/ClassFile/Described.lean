import ApiSurface.ClassFile.Description
import ApiSurface.Proofs.Canonical
import ApiSurface.Proofs.Result

/-!
What a class file describes, part by part. A row of the table of nested classes is about the class itself, about a
class in it, or about neither, and the table adds up row by row (`NestedPart.addsUp_of_foldlM`). Whatever is found,
row by row and entry by entry, is a member of its own kind, and what is described is these members in order
(`describeClass_cases`).
-/

namespace ApiSurface

open ApiSurface.Text

namespace ClassDescription

/-! ### Adding and ordering members -/

theorem updateMembers_eq (c : ClassDescription) (kind : MemberKind) (change : List Member → List Member) :
    c.updateMembers kind change =
      c.withMembers (Function.update c.members kind (change (c.members kind))) := by
  simpa using updateMembers_withMembers c c.length_members_superclass kind change

/-- Nothing but members is added. -/
theorem withMembers_members_addMember (c : ClassDescription) (m : Member) :
    c.withMembers (c.addMember m).members = c.addMember m := by
  have same := (c.addMember m).withMembers_members
  rw [addMember, updateMembers_eq, withMembers_withMembers] at same
  rwa [addMember, updateMembers_eq]

/-- Members that are added one after the other come after those that were there. -/
theorem foldl_addMember {c : ClassDescription} {ms : List Member}
    (single : (c.members .superclass ++ ms.filter (·.kind = .superclass)).length ≤ 1) :
    ms.foldl addMember c = c.withMembers fun kind => c.members kind ++ ms.filter (·.kind = kind) := by
  induction ms generalizing c with
  | nil => simp
  | cons m ms ih =>
    have first : m.kind = .superclass → c.members .superclass = [] := by
      intro same
      simp only [List.filter_cons, same, decide_true, if_true, List.length_append, List.length_cons] at single
      exact List.length_eq_zero_iff.1 (by omega)
    have step : (c.addMember m).members = fun kind => c.members kind ++ [m].filter (·.kind = kind) :=
      funext (members_addMember first)
    have same : c.addMember m = c.withMembers fun kind => c.members kind ++ [m].filter (·.kind = kind) := by
      rw [← step, withMembers_members_addMember]
    rw [List.foldl_cons, ih, step, same, withMembers_withMembers]
    · congr 1
      funext kind
      rw [List.append_assoc, ← List.filter_append]
      rfl
    · rw [step, List.append_assoc, ← List.filter_append]
      exact single

end ClassDescription

namespace ClassFile

/-! ### One from one -/

/-- Values that come from items one by one come from them one by one in any order. -/
theorem rel_of_forall₂ {α β : Type} {R : α → β → Prop} {l : List α} {bs : List β} (h : List.Forall₂ R l bs) :
    Multiset.Rel R (l : Multiset α) (bs : Multiset β) := by
  induction h with
  | nil => exact .zero
  | cons first _ ih => exact .cons first ih

/-- Steps that all gave a value: what is picked of the values comes from the items that are kept. -/
theorem forall₂_of_mapM {ε α β γ : Type} {f : α → Except ε β} {R : α → γ → Prop} {keep : α → Bool}
    {pick : β → Option γ} {l : List α} {bs : List β} (h : l.mapM f = .ok bs)
    (each : ∀ a b, f a = .ok b → Option.Rel R (Option.guard keep a) (pick b)) :
    List.Forall₂ R (l.filter keep) (bs.filterMap pick) := by
  have steps : List.Forall₂ Eq (l.map f) (bs.map .ok) := mapM_eq_ok_iff.1 h ▸ List.forall₂_refl _
  rw [List.forall₂_map_left_iff, List.forall₂_map_right_iff] at steps
  rw [← List.filterMap_eq_filter]
  exact List.rel_filterMap (fun a b same => each a b same) steps

/-! ### What is found -/

/-- What is found in a class file. -/
structure Parts where
  nested : NestedPart
  types : SuperTypes
  annotations : List AnnotationUse
  /-- Fields, or the names of those that are hidden. -/
  fields : List (String ⊕ Member)
  /-- Methods and constructors, as far as they are not hidden. -/
  methods : List (Option Member)

namespace Parts

/-- Whether the class is an interface. -/
def isInterface (p : Parts) : Bool := p.nested.modifiers.has .interface

/-- The modifiers; interfaces are abstract. -/
def modifiers (p : Parts) : Modifiers :=
  if p.isInterface then p.nested.modifiers.insert .abstract else p.nested.modifiers

/-- The members of a kind in a class of this name, in the order in which they were found. -/
def members (p : Parts) (className : String) : MemberKind → List Member
  | .superclass => ((if p.isInterface then none else p.types.superclass).map (Member.superclass className)).toList
  | .superinterface => p.types.interfaces.map (Member.superinterface className · true)
  | .field => p.fields.filterMap Sum.getRight?
  | .method => (p.methods.filterMap id).filter (·.kind = .method)
  | .constructor => (p.methods.filterMap id).filter (·.kind = .constructor)
  | .nested => p.nested.members

/-- The class of this name without its members. -/
def bare (p : Parts) (className : String) : ClassDescription :=
  { ClassDescription.named className p.modifiers with
    typeParameters := p.types.typeParameters
    annotations := p.annotations
    hiddenFields := some (.ofList (p.fields.filterMap Sum.getLeft?))
    hiddenClasses := some p.nested.hidden }

/-- The class of this name, with its members in order. -/
def description (p : Parts) (className : String) : ClassDescription :=
  { (p.bare className).withMembers fun kind => ClassDescription.sortMembers (p.members className kind) with
    annotations := ClassDescription.sortAnnotations p.annotations
    hiddenFields := ClassDescription.nonempty? (p.bare className).hiddenFields
    hiddenClasses := ClassDescription.nonempty? (p.bare className).hiddenClasses }

/-- The parts are what is found in the class file of a class of this name. -/
structure FoundIn (p : Parts) (c : ClassFile) (name : List Char) : Prop where
  nested : ∃ rows, c.pool.attributeValue? "InnerClasses" (counted NestedRow.decode) c.attributes = .ok rows ∧
    (rows.getD []).foldlM (NestedPart.add c.pool name) ⟨modifiersOf classFlags c.flags, ∅, []⟩ = .ok p.nested
  types : c.superTypes = .ok p.types
  annotations : describeUses c.pool c.attributes = .ok p.annotations
  fields : c.fields.mapM (fieldOrName c.pool (String.ofList name)) = .ok p.fields
  methods : c.methods.mapM (accessibleMethod? c.pool (String.ofList name)) = .ok p.methods

end Parts

variable {pool : Pool} {className : String} {name : List Char} {modifiers : Modifiers} {entry : MemberEntry}
  {m : Member}

/-! ### Kinds of members -/

/-- A row stands for a nested class of the class of this name that is accessible. -/
structure NestedRow.Shows (row : NestedRow) (pool : Pool) (name nestedName : List Char) : Prop where
  nested : pool.className row.nested = .ok nestedName
  outer : pool.className row.outer = .ok name
  accessible : (modifiersOf nestedFlags row.flags).isHidden = false

namespace NestedRow

/-- Whether a row is about the class of this name itself. -/
def isOwn (pool : Pool) (name : List Char) (row : NestedRow) : Bool :=
  (pool.className row.nested).toOption == some name

/-- Whether a row is about another class that has a simple name and stands in the class of this name. -/
def isInside (pool : Pool) (name : List Char) (row : NestedRow) : Bool :=
  !row.isOwn pool name && row.simpleName != 0 && (pool.className row.outer).toOption == some name

/-- Whether a row is about a class in the class of this name that is not accessible. -/
def isKeptBack (pool : Pool) (name : List Char) (row : NestedRow) : Bool :=
  row.isInside pool name && (modifiersOf nestedFlags row.flags).isHidden

/-- Whether a row is about a class in the class of this name that is accessible. -/
def isShown (pool : Pool) (name : List Char) (row : NestedRow) : Bool :=
  row.isInside pool name && !(modifiersOf nestedFlags row.flags).isHidden

/-- What an accessible class in the class of this name is described as. -/
def Gives (pool : Pool) (name : List Char) (row : NestedRow) (m : Member) : Prop :=
  ∃ nestedName, row.Shows pool name nestedName ∧
    m = .nested (String.ofList name) (String.ofList nestedName) (modifiersOf nestedFlags row.flags)

end NestedRow

namespace NestedPart

/-- What rows say about the class of this name, behind what was known of it. -/
structure AddsUp (pool : Pool) (name : List Char) (rows : List NestedRow) (part last : NestedPart) : Prop where
  modifiers : last.modifiers =
    ((rows.filter (·.isOwn pool name)).getLast?.map fun row => modifiersOf nestedFlags row.flags).getD part.modifiers
  hidden : ∀ text, text ∈ last.hidden.toList ↔ text ∈ part.hidden.toList ∨
    ∃ row ∈ rows, row.isKeptBack pool name ∧ pool.text row.simpleName = .ok text.toList
  members : ∃ found, List.Forall₂ (NestedRow.Gives pool name) (rows.filter (·.isShown pool name)) found ∧
    last.members = part.members ++ found

theorem AddsUp.append {rows more : List NestedRow} {part next last : NestedPart}
    (h : AddsUp pool name rows part next) (k : AddsUp pool name more next last) :
    AddsUp pool name (rows ++ more) part last := by
  obtain ⟨found, given, members⟩ := h.members
  obtain ⟨found', given', members'⟩ := k.members
  refine ⟨?_, fun text => ?_, found ++ found', ?_, by rw [members', members, List.append_assoc]⟩
  · rw [k.modifiers, h.modifiers, List.filter_append, List.getLast?_append]
    cases (more.filter (·.isOwn pool name)).getLast? <;> simp
  · rw [k.hidden, h.hidden, or_assoc]
    simp only [List.mem_append, or_and_right, exists_or]
  · rw [List.filter_append]
    exact List.rel_append given given'

/-- A row about the class itself says what its modifiers are. -/
theorem addsUp_of_own {row : NestedRow} (own : row.isOwn pool name) (part : NestedPart) :
    AddsUp pool name [row] part { part with modifiers := modifiersOf nestedFlags row.flags } := by
  have outside : row.isInside pool name = false := by simp [NestedRow.isInside, own]
  exact ⟨by simp [own], by simp [NestedRow.isKeptBack, outside], [], by simp [NestedRow.isShown, outside], by simp⟩

/-- A row about a class elsewhere adds nothing. -/
theorem addsUp_of_outside {row : NestedRow} (own : row.isOwn pool name = false)
    (outside : row.isInside pool name = false) (part : NestedPart) : AddsUp pool name [row] part part :=
  ⟨by simp [own], by simp [NestedRow.isKeptBack, outside], [], by simp [NestedRow.isShown, outside], by simp⟩

/-- What a row of the table of nested classes adds. -/
theorem addsUp_of_add {part next : NestedPart} {row : NestedRow} (h : part.add pool name row = .ok next) :
    AddsUp pool name [row] part next := by
  unfold NestedPart.add at h
  obtain ⟨nestedName, named, h⟩ := bind_eq_ok_iff.1 h
  have isOwn : row.isOwn pool name = decide (nestedName = name) := by
    simp [NestedRow.isOwn, named, Except.toOption, beq_eq_decide]
  by_cases own : nestedName = name
  · rw [if_pos own] at h
    obtain rfl := Except.ok.inj h
    exact addsUp_of_own (by simp [isOwn, own]) part
  have another : row.isOwn pool name = false := by simp [isOwn, own]
  rw [if_neg own] at h
  by_cases apart : row.outer = 0 ∨ row.simpleName = 0
  · rw [if_pos apart] at h
    obtain rfl := Except.ok.inj h
    refine addsUp_of_outside another ?_ part
    rcases apart with top | unnamed
    -- no entry of a pool has the index that stands for no class
    · have nowhere : (pool.className row.outer).toOption = none := by rw [top]; rfl
      simp [NestedRow.isInside, nowhere]
    · simp [NestedRow.isInside, unnamed]
  rw [if_neg apart] at h
  obtain ⟨outer, around, h⟩ := bind_eq_ok_iff.1 h
  by_cases other : outer ≠ name
  · rw [if_pos other] at h
    obtain rfl := Except.ok.inj h
    exact addsUp_of_outside another (by simp [NestedRow.isInside, around, Except.toOption, other]) part
  obtain rfl : outer = name := not_not.1 other
  have inside : row.isInside pool outer := by
    simp [NestedRow.isInside, another, (not_or.1 apart).2, around, Except.toOption]
  rw [if_neg other] at h
  by_cases hidden : (modifiersOf nestedFlags row.flags).isHidden
  · rw [if_pos hidden] at h
    obtain ⟨simple, read, h⟩ := bind_eq_ok_iff.1 h
    obtain rfl := Except.ok.inj h
    refine ⟨by simp [another], fun text => ?_, [], by simp [NestedRow.isShown, hidden], by simp⟩
    have same : text = String.ofList simple ↔ simple = text.toList := by
      rw [← String.toList_inj, String.toList_ofList, eq_comm]
    simp [Ordered.Set.mem_insert, NestedRow.isKeptBack, inside, hidden, read, same, or_comm]
  · rw [if_neg hidden] at h
    obtain rfl := Except.ok.inj h
    have accessible : (modifiersOf nestedFlags row.flags).isHidden = false := by simpa using hidden
    have shown : [row].filter (·.isShown pool outer) = [row] := by
      simp [NestedRow.isShown, inside, accessible]
    refine ⟨by simp [another], by simp [NestedRow.isKeptBack, accessible], [_], ?_, rfl⟩
    rw [shown]
    exact .cons ⟨nestedName, ⟨named, around, accessible⟩, rfl⟩ .nil

/-- What the table of nested classes adds. -/
theorem addsUp_of_foldlM {rows : List NestedRow} {part last : NestedPart}
    (h : rows.foldlM (NestedPart.add pool name) part = .ok last) : AddsUp pool name rows part last := by
  induction rows generalizing part with
  | nil =>
    obtain rfl := Except.ok.inj h
    exact ⟨rfl, by simp, [], .nil, by simp⟩
  | cons row rows ih =>
    rw [List.foldlM_cons] at h
    obtain ⟨next, step, h⟩ := bind_eq_ok_iff.1 h
    exact (addsUp_of_add step).append (ih h)

end NestedPart

/-- All nested classes that are found are such, and accessible. -/
theorem nested_of_foldlM {rows : List NestedRow} {part last : NestedPart}
    (h : rows.foldlM (NestedPart.add pool name) part = .ok last) {m : Member} (mem : m ∈ last.members) :
    m ∈ part.members ∨ ∃ row ∈ rows, row.Gives pool name m := by
  obtain ⟨found, given, members⟩ := (NestedPart.addsUp_of_foldlM h).members
  rw [members, List.mem_append] at mem
  refine mem.imp id fun inFound => ?_
  obtain ⟨row, kept, gives⟩ := Multiset.exists_mem_of_rel_of_mem (rel_of_forall₂ given.flip) (a := m) inFound
  exact ⟨row, (List.mem_filter.1 kept).1, gives⟩

/-- All names of nested classes that are kept as hidden are simple names of rows. -/
theorem hidden_of_foldlM {rows : List NestedRow} {part last : NestedPart}
    (h : rows.foldlM (NestedPart.add pool name) part = .ok last) {text : String} (mem : text ∈ last.hidden.toList) :
    text ∈ part.hidden.toList ∨
      ∃ row ∈ rows, ∃ simple, pool.text row.simpleName = .ok simple ∧ text = String.ofList simple := by
  refine ((NestedPart.addsUp_of_foldlM h).hidden text).1 mem |>.imp id ?_
  rintro ⟨row, inRows, -, read⟩
  exact ⟨row, inRows, text.toList, read, String.ofList_toList.symm⟩

/-- The signature of a field or a method, or its descriptor if it has none. -/
def signatureText (pool : Pool) (entry : MemberEntry) : Except ClassFault (List Char) := do
  match ← pool.attributeText? "Signature" entry.attributes with
  | some text => return text
  | none => pool.text entry.descriptor

/-- The type of a field by its signature, or by its descriptor if it has none. -/
def declaredType (pool : Pool) (entry : MemberEntry) : Except ClassFault JavaType := do
  liftDescriptor Descriptor.ofField (← signatureText pool entry)

/-- The types of a method by its signature, or by its descriptor if it has none. -/
def declaredTypes (pool : Pool) (entry : MemberEntry) : Except ClassFault MethodSignature := do
  liftDescriptor Descriptor.ofMethod (← signatureText pool entry)

/-- The index of the constant of a field, if it has one. -/
def constantIndex (pool : Pool) (entry : MemberEntry) : Except ClassFault (Option UInt16) :=
  pool.attributeValue? "ConstantValue" u16 entry.attributes

/-- A field that is described has the name, the visible modifiers, the type and the constant of its entry. -/
theorem describeField_steps (h : describeField pool className name modifiers entry = .ok m) :
    ∃ (type : JavaType) (index : Option UInt16) (constant : Option (List Char)) (uses : List AnnotationUse),
      declaredType pool entry = .ok type ∧ constantIndex pool entry = .ok index ∧
      index.mapM (constantText pool type.render) = .ok constant ∧
      describeUses pool entry.attributes = .ok uses ∧
      m = ⟨className, String.ofList name, modifiers.visible, uses,
        .field (String.ofList type.render) (constant.map String.ofList)⟩ := by
  unfold describeField at h
  obtain ⟨found, given, h⟩ := bind_eq_ok_iff.1 h
  extract_lets rest at h
  obtain ⟨text, read, h⟩ : ∃ text, signatureText pool entry = .ok text ∧ rest text = .ok m := by
    rw [signatureText, given, ok_bind]
    cases found with
    | some text => exact ⟨text, rfl, h⟩
    | none => exact bind_eq_ok_iff.1 h
  obtain ⟨type, typed, h⟩ := bind_eq_ok_iff.1 h
  obtain ⟨index, indexed, h⟩ := bind_eq_ok_iff.1 h
  obtain ⟨constant, valued, h⟩ := bind_eq_ok_iff.1 h
  obtain ⟨uses, annotated, h⟩ := bind_eq_ok_iff.1 h
  exact ⟨type, index, constant, uses, bind_eq_ok_iff.2 ⟨text, read, typed⟩, indexed, valued, annotated,
    (Except.ok.inj h).symm⟩

/-- A field that is described has the name, the visible modifiers and the type of its entry. -/
theorem describeField_cases (h : describeField pool className name modifiers entry = .ok m) :
    ∃ (type : JavaType) (constant : Option (List Char)) (uses : List AnnotationUse),
      declaredType pool entry = .ok type ∧
      (∀ text ∈ constant, ∃ index, constantText pool type.render index = .ok text) ∧
      describeUses pool entry.attributes = .ok uses ∧
      m = ⟨className, String.ofList name, modifiers.visible, uses,
        .field (String.ofList type.render) (constant.map String.ofList)⟩ := by
  obtain ⟨type, index, constant, uses, typed, -, valued, annotated, same⟩ := describeField_steps h
  refine ⟨type, constant, uses, typed, fun value mem => ?_, annotated, same⟩
  obtain rfl := Option.mem_def.1 mem
  cases index with
  | none => cases valued
  | some index =>
    obtain ⟨found, read, same⟩ := bind_eq_ok_iff.1 valued
    obtain rfl := Option.some.inj (Except.ok.inj same)
    exact ⟨index, read⟩

/-- What the attribute for exceptions lists. -/
def thrownAt (pool : Pool) (entry : MemberEntry) : Except ClassFault (Option (List UInt16)) :=
  pool.attributeValue? "Exceptions" (counted u16) entry.attributes

/-- The types of a method are those of its signature or descriptor, and its exceptions those of its signature
or of the attribute for them. -/
theorem methodTypes_cases {types : MethodTypes} (h : methodTypes pool entry = .ok types) :
    ∃ signature, declaredTypes pool entry = .ok signature ∧
      types.typeParameters = signature.parameters.map (fun ps => String.ofList (renderParameters ps)) ∧
      types.arguments = signature.arguments.map JavaType.render ∧
      types.result = String.ofList signature.result.render ∧
      ∀ e ∈ types.throws, (∃ t ∈ signature.throws, e = String.ofList t.render) ∨
        ∃ thrown, thrownAt pool entry = .ok thrown ∧
          ∃ index ∈ thrown.getD [], ∃ name, pool.className index = .ok name ∧ e = String.ofList name := by
  unfold methodTypes at h
  obtain ⟨descriptor, plain, h⟩ := bind_eq_ok_iff.1 h
  obtain ⟨raw, typed, h⟩ := bind_eq_ok_iff.1 h
  obtain ⟨found, given, h⟩ := bind_eq_ok_iff.1 h
  extract_lets rest at h
  obtain ⟨signature, declared, h⟩ :
      ∃ signature, declaredTypes pool entry = .ok signature ∧ rest signature = .ok types := by
    rw [declaredTypes, signatureText, given, ok_bind]
    cases found with
    | some text => exact bind_eq_ok_iff.1 h
    | none => exact ⟨raw, bind_eq_ok_iff.2 ⟨descriptor, plain, typed⟩, h⟩
  refine ⟨signature, declared, ?_⟩
  simp only [rest] at h
  split at h
  · obtain ⟨thrown, listed, h⟩ := bind_eq_ok_iff.1 h
    obtain ⟨throws, named, h⟩ := bind_eq_ok_iff.1 h
    obtain rfl := Except.ok.inj h
    refine ⟨rfl, rfl, rfl, fun e mem => .inr ⟨thrown, listed, ?_⟩⟩
    obtain ⟨text, inThrows, rfl⟩ := List.mem_map.1 mem
    obtain ⟨index, inThrown, read⟩ := exists_of_mem_mapM named inThrows
    exact ⟨index, inThrown, text, read, rfl⟩
  · obtain rfl := Except.ok.inj h
    refine ⟨rfl, rfl, rfl, fun e mem => .inl ?_⟩
    obtain ⟨text, inThrows, rfl⟩ := List.mem_map.1 mem
    obtain ⟨t, inSignature, rfl⟩ := List.mem_map.1 inThrows
    exact ⟨t, inSignature, rfl⟩

/-- The arguments of a method as one text. -/
def argumentsText (modifiers : Modifiers) (types : MethodTypes) : String :=
  String.ofList (join [','] (if modifiers.has .varargs then variadic types.arguments else types.arguments))

/-- A method that is described has the name, the visible modifiers and the types of its entry; a constructor
has the simple name of its class. -/
theorem describeMethod_cases (h : describeMethod pool className name modifiers entry = .ok m) :
    ∃ types default own uses, methodTypes pool entry = .ok types ∧ defaultText? pool entry = .ok default ∧
      describeUses pool entry.attributes = .ok own ∧
      (∃ others, describeParameterUses pool entry.attributes = .ok others ∧ uses = own ++ others) ∧
      ((name = constructorName ∧ m = ⟨className, simpleName className, modifiers.visible, uses,
          .constructor types.typeParameters (argumentsText modifiers types) types.throws⟩) ∨
        (name ≠ constructorName ∧ m = ⟨className, String.ofList name, modifiers.visible, uses,
          .method types.typeParameters types.result (argumentsText modifiers types) types.throws default⟩)) := by
  unfold describeMethod at h
  obtain ⟨types, typed, h⟩ := bind_eq_ok_iff.1 h
  obtain ⟨default, value, h⟩ := bind_eq_ok_iff.1 h
  obtain ⟨uses, annotated, h⟩ := bind_eq_ok_iff.1 h
  obtain ⟨more, parameters, h⟩ := bind_eq_ok_iff.1 h
  refine ⟨types, default, uses, uses ++ more, typed, value, annotated, ⟨more, parameters, rfl⟩, ?_⟩
  obtain rfl := Except.ok.inj h
  obtain ⟨ps, arguments, result, throws⟩ := types
  by_cases constructs : name = constructorName
  · refine .inl ⟨constructs, ?_⟩
    rw [if_pos constructs]
    cases ps <;> cases default <;> rfl
  · refine .inr ⟨constructs, ?_⟩
    rw [if_neg constructs]
    cases ps <;> cases default <;> rfl

/-! ### Super types -/

/-- The super types of a class are those of its signature, or the classes that it refers to. -/
theorem superTypes_cases {c : ClassFile} {types : SuperTypes} (h : c.superTypes = .ok types) :
    (∃ text signature, c.pool.attributeText? "Signature" c.attributes = .ok (some text) ∧
      liftDescriptor Descriptor.ofClass text = .ok signature ∧
      types = ⟨signature.parameters.map fun ps => String.ofList (renderParameters ps),
        some (String.ofList signature.superclass.render),
        signature.interfaces.map fun t => String.ofList t.render⟩) ∨
    (types.typeParameters = none ∧
      (∀ text ∈ types.superclass, ∃ above, c.pool.className c.superclass = .ok above ∧ text = String.ofList above) ∧
      ∀ text ∈ types.interfaces, ∃ index ∈ c.interfaces, ∃ above, c.pool.className index = .ok above ∧
        text = String.ofList above) := by
  unfold superTypes at h
  obtain ⟨found, given, h⟩ := bind_eq_ok_iff.1 h
  cases found with
  | some text =>
    obtain ⟨signature, read, h⟩ := bind_eq_ok_iff.1 h
    exact .inl ⟨text, signature, given, read, (Except.ok.inj h).symm⟩
  | none =>
    refine .inr ?_
    extract_lets rest at h
    obtain ⟨superclass, known, h⟩ : ∃ superclass, (∀ above ∈ superclass, c.pool.className c.superclass = .ok above) ∧
        rest superclass = .ok types := by
      by_cases top : c.superclass = 0
      · rw [if_pos top] at h
        exact ⟨none, nofun, h⟩
      · rw [if_neg top] at h
        obtain ⟨superclass, named, h⟩ := bind_eq_ok_iff.1 h
        obtain ⟨above, read, rfl⟩ := map_eq_ok_iff.1 named
        exact ⟨some above, fun other mem => by rwa [← Option.some.inj mem], h⟩
    obtain ⟨interfaces, named, h⟩ := bind_eq_ok_iff.1 h
    obtain rfl := Except.ok.inj h
    refine ⟨rfl, fun text mem => ?_, fun text mem => ?_⟩
    · obtain ⟨above, inSuperclass, rfl⟩ := Option.map_eq_some_iff.1 mem
      exact ⟨above, known above inSuperclass, rfl⟩
    · obtain ⟨above, inInterfaces, rfl⟩ := List.mem_map.1 mem
      obtain ⟨index, inList, read⟩ := exists_of_mem_mapM named inInterfaces
      exact ⟨index, inList, above, read, rfl⟩

/-! ### Members of entries -/

theorem fieldOrName_cases {found : String ⊕ Member} (h : fieldOrName pool className entry = .ok found) :
    ∃ name, pool.text entry.name = .ok name ∧
      (((modifiersOf fieldFlags entry.flags).isHidden ∧ found = .inl (String.ofList name)) ∨
        ((modifiersOf fieldFlags entry.flags).isHidden = false ∧ ∃ m, found = .inr m ∧
          describeField pool className name (modifiersOf fieldFlags entry.flags) entry = .ok m)) := by
  unfold fieldOrName at h
  obtain ⟨name, named, h⟩ := bind_eq_ok_iff.1 h
  refine ⟨name, named, ?_⟩
  by_cases hidden : (modifiersOf fieldFlags entry.flags).isHidden
  · rw [if_pos hidden] at h
    exact .inl ⟨hidden, (Except.ok.inj h).symm⟩
  · rw [if_neg hidden] at h
    obtain ⟨m, described, h⟩ := bind_eq_ok_iff.1 h
    exact .inr ⟨by simpa using hidden, m, (Except.ok.inj h).symm, described⟩

theorem accessibleMethod?_cases {found : Option Member} (h : accessibleMethod? pool className entry = .ok found) :
    ∃ name, pool.text entry.name = .ok name ∧
      (((name = classInitName ∨ (modifiersOf methodFlags entry.flags).isHidden) ∧ found = none) ∨
        (name ≠ classInitName ∧ (modifiersOf methodFlags entry.flags).isHidden = false ∧ ∃ m, found = some m ∧
          describeMethod pool className name (modifiersOf methodFlags entry.flags) entry = .ok m)) := by
  unfold accessibleMethod? at h
  obtain ⟨name, named, h⟩ := bind_eq_ok_iff.1 h
  refine ⟨name, named, ?_⟩
  by_cases hidden : name = classInitName ∨ (modifiersOf methodFlags entry.flags).isHidden
  · rw [if_pos hidden] at h
    exact .inl ⟨hidden, (Except.ok.inj h).symm⟩
  · rw [if_neg hidden] at h
    obtain ⟨m, described, h⟩ := bind_eq_ok_iff.1 h
    rw [not_or] at hidden
    exact .inr ⟨hidden.1, by simpa using hidden.2, m, (Except.ok.inj h).symm, described⟩

variable {p : Parts} {c : ClassFile}

namespace Parts.FoundIn

theorem kind_nested (found : p.FoundIn c name) {m : Member} (mem : m ∈ p.nested.members) : m.kind = .nested := by
  obtain ⟨rows, -, walk⟩ := found.nested
  rcases nested_of_foldlM walk mem with none | ⟨row, -, nestedName, -, rfl⟩
  · cases none
  · rfl

theorem kind_field (found : p.FoundIn c name) {m : Member} (mem : .inr m ∈ p.fields) : m.kind = .field := by
  obtain ⟨entry, -, described⟩ := exists_of_mem_mapM found.fields mem
  obtain ⟨fieldName, -, ⟨-, hidden⟩ | ⟨-, n, same, field⟩⟩ := fieldOrName_cases described
  · cases hidden
  · obtain rfl := Sum.inr.inj same
    obtain ⟨type, constant, uses, -, -, -, rfl⟩ := describeField_cases field
    rfl

theorem kind_method (found : p.FoundIn c name) {m : Member} (mem : some m ∈ p.methods) :
    m.kind = .method ∨ m.kind = .constructor := by
  obtain ⟨entry, -, described⟩ := exists_of_mem_mapM found.methods mem
  obtain ⟨methodName, -, ⟨-, hidden⟩ | ⟨-, -, n, same, method⟩⟩ := accessibleMethod?_cases described
  · cases hidden
  · obtain rfl := Option.some.inj same
    obtain ⟨types, default, own, uses, -, -, -, -, ⟨-, rfl⟩ | ⟨-, rfl⟩⟩ := describeMethod_cases method
    · exact .inr rfl
    · exact .inl rfl

end Parts.FoundIn

namespace Parts

/-- What is described is the canonical form of what is found. -/
theorem description_eq (p : Parts) (className : String) :
    p.description className = ((p.bare className).withMembers (p.members className)).canonicalize := by
  rw [ClassDescription.canonicalize_eq, ClassDescription.members_withMembers _ Option.length_toList_le]
  rfl

/-- A class has the members that are found in it, in order. -/
theorem members_description (p : Parts) (className : String) (kind : MemberKind) :
    (p.description className).members kind = ClassDescription.sortMembers (p.members className kind) := by
  rw [description_eq, ClassDescription.members_canonicalize,
    ClassDescription.members_withMembers _ Option.length_toList_le]

/-- Everything that is found, in the order in which it is filed. -/
def all (p : Parts) (className : String) : List Member :=
  p.nested.members ++
    ((if p.isInterface then none else p.types.superclass).map (Member.superclass className)).toList ++
    p.types.interfaces.map (Member.superinterface className · true) ++
    p.fields.filterMap Sum.getRight? ++ p.methods.filterMap id

theorem filter_of_kind {ms : List Member} {kind : MemberKind} (h : ∀ m ∈ ms, m.kind = kind) (other : MemberKind) :
    ms.filter (·.kind = other) = if kind = other then ms else [] := by
  split
  · rename_i same
    rw [List.filter_eq_self]
    intro m mem
    simpa [h m mem] using same
  · rename_i apart
    rw [List.filter_eq_nil_iff]
    intro m mem
    simpa [h m mem] using apart

/-- Of what is found, every kind gets its own. -/
theorem FoundIn.filter_all (found : p.FoundIn c name) (className : String) (kind : MemberKind) :
    (p.all className).filter (·.kind = kind) = p.members className kind := by
  have nested : ∀ m ∈ p.nested.members, m.kind = .nested := fun m mem => found.kind_nested mem
  have superclass : ∀ m ∈ ((if p.isInterface then none else p.types.superclass).map
      (Member.superclass className)).toList, m.kind = .superclass := by
    intro m mem
    obtain ⟨above, -, rfl⟩ := Option.map_eq_some_iff.1 (Option.mem_toList.1 mem)
    rfl
  have interfaces : ∀ m ∈ p.types.interfaces.map (Member.superinterface className · true),
      m.kind = .superinterface := by
    intro m mem
    obtain ⟨above, -, rfl⟩ := List.mem_map.1 mem
    rfl
  have fields : ∀ m ∈ p.fields.filterMap Sum.getRight?, m.kind = .field := by
    intro m mem
    obtain ⟨entry, inFields, same⟩ := List.mem_filterMap.1 mem
    exact found.kind_field (Sum.getRight?_eq_some_iff.1 same ▸ inFields)
  have methods {other : MemberKind} (noMethod : other ≠ .method) (noConstructor : other ≠ .constructor) :
      (p.methods.filterMap id).filter (·.kind = other) = [] := by
    rw [List.filter_eq_nil_iff]
    intro m mem
    obtain ⟨_, inMethods, rfl⟩ := List.mem_filterMap.1 mem
    rcases found.kind_method inMethods with kind | kind <;> simp [kind, Ne.symm noMethod, Ne.symm noConstructor]
  simp only [all, List.filter_append, filter_of_kind nested, filter_of_kind superclass,
    filter_of_kind interfaces, filter_of_kind fields]
  cases kind with
  | method | constructor => simp [members]
  | superclass | superinterface | field | nested =>
    rw [methods (by decide) (by decide)]
    simp [members]

end Parts

/-- A class file describes the members that are found in it, in order. -/
theorem describeClass_cases {d : ClassDescription} (h : c.describeClass name = .ok d) :
    ∃ p : Parts, p.FoundIn c name ∧ d = p.description (String.ofList name) := by
  unfold describeClass at h
  obtain ⟨rows, table, h⟩ := bind_eq_ok_iff.1 h
  obtain ⟨nested, walk, h⟩ := bind_eq_ok_iff.1 h
  obtain ⟨types, above, h⟩ := bind_eq_ok_iff.1 h
  obtain ⟨uses, annotated, h⟩ := bind_eq_ok_iff.1 h
  obtain ⟨fields, described, h⟩ := bind_eq_ok_iff.1 h
  obtain ⟨methods, accessible, h⟩ := bind_eq_ok_iff.1 h
  let p : Parts := ⟨nested, types, uses, fields, methods⟩
  have found : p.FoundIn c name := ⟨⟨rows, table, walk⟩, above, annotated, described, accessible⟩
  refine ⟨p, found, ?_⟩
  have single : ((p.all (String.ofList name)).filter (·.kind = .superclass)).length ≤ 1 := by
    rw [found.filter_all]
    exact Option.length_toList_le
  have nothing (kind : MemberKind) : (p.bare (String.ofList name)).members kind = [] := by cases kind <;> rfl
  have filed : d = ((p.all (String.ofList name)).foldl ClassDescription.addMember
      (p.bare (String.ofList name))).canonicalize := (Except.ok.inj h).symm
  rw [filed, ClassDescription.foldl_addMember (by simpa [nothing] using single), p.description_eq]
  simp only [nothing, List.nil_append, found.filter_all]

/-- What bytes describe is what the class file at their front describes. -/
theorem parse_cases {bytes : List UInt8} {d : ClassDescription} (h : parse bytes = .ok d) :
    ∃ c rest name, decode bytes = .ok (c, rest) ∧ c.pool.className c.thisClass = .ok name ∧
      c.describe name = .ok d := by
  unfold parse at h
  split at h
  · cases h
  cases decoded : decode bytes with
  | error fault => simp [decoded] at h
  | ok found =>
    obtain ⟨c, rest⟩ := found
    rw [decoded] at h
    cases named : c.pool.className c.thisClass with
    | error fault => simp [named] at h
    | ok name =>
      simp only [named] at h
      exact ⟨c, rest, name, rfl, named, mapError_eq_ok_iff.1 h⟩

end ClassFile
end ApiSurface
