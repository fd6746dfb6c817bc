import ApiSurface.Proofs.ClassFile.Described

/-!
The accessible part of a class file. A field, a method or a nested class is accessible if its bits say that it is
public or protected and do not say that it is there for the compiler only. Main statement: the class that a class
file describes has one member for every accessible entry and row, the simple names of what is not accessible, and
the modifiers that the file gives it, all in canonical form (`parse_captures`).
-/

namespace ApiSurface.ClassFile

open ApiSurface.Text

/-! ### Accessible bits -/

/-- Whether bits are those of a field or a nested class that is public or protected and not made by the compiler. -/
def isApi (flags : UInt16) : Bool := (isSet flags 0x0001 || isSet flags 0x0004) && !isSet flags 0x1000

/-- Whether bits are those of a method that is public or protected, not made by the compiler and no bridge. -/
def isApiMethod (flags : UInt16) : Bool := isApi flags && !isSet flags 0x0040

/-- The bits that stand for a modifier in a table. -/
def bitsOf (table : List (UInt16 × Modifier)) (k : Modifier) : List UInt16 :=
  (table.filter (·.2 = k)).map Prod.fst

/-- A set holds what the bits of a table stand for, as far as it has a keyword. -/
def ShowsBits (table : List (UInt16 × Modifier)) (flags : UInt16) (set : Modifiers) : Prop :=
  ∀ k, set.has k ↔ k.keyword?.isSome ∧ (bitsOf table k).any (isSet flags)

variable {table : List (UInt16 × Modifier)} {flags : UInt16}

theorem has_modifiersOf (table : List (UInt16 × Modifier)) (flags : UInt16) (k : Modifier) :
    (modifiersOf table flags).has k = (bitsOf table k).any (isSet flags) := by
  rw [Bool.eq_iff_iff]
  simp [modifiersOf, bitsOf]

/-- What is hidden is not accessible, or a bridge. -/
theorem isHidden_modifiersOf (isPublic : bitsOf table .public = [0x0001])
    (isProtected : bitsOf table .protected = [0x0004]) (isSynthetic : bitsOf table .synthetic = [0x1000]) :
    (modifiersOf table flags).isHidden = !(isApi flags && !(bitsOf table .bridge).any (isSet flags)) := by
  simp only [Modifiers.isHidden, Modifiers.isAccessible, has_modifiersOf, isPublic, isProtected, isSynthetic, isApi,
    List.any_cons, List.any_nil, Bool.or_false, Bool.not_and, Bool.not_not]

theorem isHidden_fieldFlags (flags : UInt16) : (modifiersOf fieldFlags flags).isHidden = !isApi flags := by
  rw [isHidden_modifiersOf rfl rfl rfl]
  simp [show bitsOf fieldFlags .bridge = [] from rfl]

theorem isHidden_nestedFlags (flags : UInt16) : (modifiersOf nestedFlags flags).isHidden = !isApi flags := by
  rw [isHidden_modifiersOf rfl rfl rfl]
  simp [show bitsOf nestedFlags .bridge = [] from rfl]

theorem isHidden_methodFlags (flags : UInt16) : (modifiersOf methodFlags flags).isHidden = !isApiMethod flags := by
  rw [isHidden_modifiersOf rfl rfl rfl]
  simp [show bitsOf methodFlags .bridge = [0x0040] from rfl, isApiMethod]

theorem showsBits_visible (table : List (UInt16 × Modifier)) (flags : UInt16) :
    ShowsBits table flags (modifiersOf table flags).visible := by
  intro k
  rw [Modifiers.has_visible, Bool.and_eq_true, has_modifiersOf, and_comm]

/-- All that the bits of an accessible nested class stand for has a keyword. -/
theorem showsBits_nestedFlags (api : isApi flags) : ShowsBits nestedFlags flags (modifiersOf nestedFlags flags) := by
  intro k
  rw [has_modifiersOf, iff_and_self]
  intro set
  obtain ⟨bit, listed, on⟩ := List.any_eq_true.1 set
  have made : isSet flags 0x1000 = false := by
    rw [isApi, Bool.and_eq_true] at api
    simpa using api.2
  by_contra unwritten
  have only : bit = 0x1000 := by
    cases k <;> simp_all [bitsOf, nestedFlags, Modifier.keyword?]
  rw [only, made] at on
  cases on

/-! ### Entries and their members -/

/-- Whether an entry has this name. -/
def MemberEntry.isNamed (pool : Pool) (name : List Char) (entry : MemberEntry) : Bool :=
  (pool.text entry.name).toOption == some name

/-- What an entry of a field is described as in a class of this name. -/
structure DescribesField (pool : Pool) (className : String) (entry : MemberEntry) (m : Member) : Prop where
  declaring : m.declaringClass = className
  name : pool.text entry.name = .ok m.name.toList
  modifiers : ShowsBits fieldFlags entry.flags m.modifiers
  detail : ∃ type index constant, declaredType pool entry = .ok type ∧ constantIndex pool entry = .ok index ∧
    index.mapM (constantText pool type.render) = .ok constant ∧
    m.detail = .field (String.ofList type.render) (constant.map String.ofList)
  annotations : ∃ uses, describeUses pool entry.attributes = .ok uses ∧
    m.annotations = ClassDescription.sortAnnotations uses

/-- What an entry of a method or a constructor is described as in a class of this name, but for its name and
details. -/
structure DescribesCode (pool : Pool) (className : String) (entry : MemberEntry) (m : Member) : Prop where
  declaring : m.declaringClass = className
  modifiers : ShowsBits methodFlags entry.flags m.modifiers
  annotations : ∃ own others, describeUses pool entry.attributes = .ok own ∧
    describeParameterUses pool entry.attributes = .ok others ∧
    m.annotations = ClassDescription.sortAnnotations (own ++ others)

/-- The arguments of an entry as one text. The last one, if it is an array, may take any number of values. -/
def givenArguments (entry : MemberEntry) (types : MethodTypes) : String :=
  String.ofList (join [','] (if isSet entry.flags 0x0080 then variadic types.arguments else types.arguments))

/-- What an entry of a method is described as in a class of this name. -/
structure DescribesMethod (pool : Pool) (className : String) (entry : MemberEntry) (m : Member) : Prop
    extends DescribesCode pool className entry m where
  name : pool.text entry.name = .ok m.name.toList
  detail : ∃ types default, methodTypes pool entry = .ok types ∧ defaultText? pool entry = .ok default ∧
    m.detail = .method types.typeParameters types.result (givenArguments entry types) types.throws default

/-- What an entry of a constructor is described as in a class of this name. -/
structure DescribesConstructor (pool : Pool) (className : String) (entry : MemberEntry) (m : Member) : Prop
    extends DescribesCode pool className entry m where
  name : m.name = simpleName className
  detail : ∃ types, methodTypes pool entry = .ok types ∧
    m.detail = .constructor types.typeParameters (givenArguments entry types) types.throws

/-- What a row about a nested class is described as in a class of this name. -/
structure DescribesNested (pool : Pool) (className : String) (row : NestedRow) (m : Member) : Prop where
  declaring : m.declaringClass = className
  name : pool.className row.nested = .ok m.name.toList
  modifiers : ShowsBits nestedFlags row.flags m.modifiers
  detail : m.detail = .nested
  annotations : m.annotations = []

variable {pool : Pool} {className : String} {entry : MemberEntry} {m : Member}

theorem argumentsText_modifiersOf (entry : MemberEntry) (types : MethodTypes) :
    argumentsText (modifiersOf methodFlags entry.flags) types = givenArguments entry types := by
  rw [argumentsText, has_modifiersOf, show bitsOf methodFlags .varargs = [0x0080] from rfl]
  simp [givenArguments]

theorem DescribesMethod.kind (h : DescribesMethod pool className entry m) : m.kind = .method := by
  obtain ⟨types, default, -, -, detail⟩ := h.detail
  rw [Member.kind, detail]
  rfl

theorem DescribesConstructor.kind (h : DescribesConstructor pool className entry m) : m.kind = .constructor := by
  obtain ⟨types, -, detail⟩ := h.detail
  rw [Member.kind, detail]
  rfl

/-- A field that is described is what its entry describes, with its annotations in order. -/
theorem describesField_arrange {name : List Char} (named : pool.text entry.name = .ok name)
    (h : describeField pool className name (modifiersOf fieldFlags entry.flags) entry = .ok m) :
    DescribesField pool className entry m.arrange := by
  obtain ⟨type, index, constant, uses, typed, indexed, valued, annotated, rfl⟩ := describeField_steps h
  refine ⟨rfl, ?_, showsBits_visible _ _, ⟨type, index, constant, typed, indexed, valued, rfl⟩,
    ⟨uses, annotated, rfl⟩⟩
  rw [named, Member.arrange, String.toList_ofList]

/-- A method or a constructor that is described is what its entry describes, with its annotations in order. -/
theorem describesMethod_arrange {name : List Char} (named : pool.text entry.name = .ok name)
    (h : describeMethod pool className name (modifiersOf methodFlags entry.flags) entry = .ok m) :
    (name = constructorName ∧ DescribesConstructor pool className entry m.arrange) ∨
      (name ≠ constructorName ∧ DescribesMethod pool className entry m.arrange) := by
  obtain ⟨types, default, own, uses, typed, value, annotated, ⟨others, placed, rfl⟩, cases⟩ := describeMethod_cases h
  rw [argumentsText_modifiersOf] at cases
  refine cases.imp ?_ ?_
  · rintro ⟨constructs, rfl⟩
    exact ⟨constructs, ⟨rfl, showsBits_visible _ _, own, others, annotated, placed, rfl⟩, rfl, types, typed, rfl⟩
  · rintro ⟨other, rfl⟩
    refine ⟨other, ⟨rfl, showsBits_visible _ _, own, others, annotated, placed, rfl⟩, ?_, types, default, typed, value,
      rfl⟩
    rw [named, Member.arrange, String.toList_ofList]

/-- An accessible nested class that is found is what its row describes. -/
theorem describesNested_arrange {name : List Char} {row : NestedRow} (h : row.Gives pool name m) :
    DescribesNested pool (String.ofList name) row m.arrange := by
  obtain ⟨nestedName, shows, rfl⟩ := h
  have api : isApi row.flags := by simpa [isHidden_nestedFlags] using shows.accessible
  refine ⟨rfl, ?_, showsBits_nestedFlags api, rfl, List.mergeSort_nil⟩
  rw [shows.nested, Member.arrange, Member.nested, String.toList_ofList]

/-- The entry of a field gives a member if it is accessible. -/
theorem rel_fieldOrName {found : String ⊕ Member} (h : fieldOrName pool className entry = .ok found) :
    Option.Rel (fun entry m => DescribesField pool className entry m.arrange)
      (Option.guard (fun entry => isApi entry.flags) entry) found.getRight? := by
  obtain ⟨name, named, ⟨hidden, rfl⟩ | ⟨shown, m, rfl, described⟩⟩ := fieldOrName_cases h
  · have closed : isApi entry.flags = false := by simpa [isHidden_fieldFlags] using hidden
    simp [Option.guard, closed]
  · have api : isApi entry.flags := by simpa [isHidden_fieldFlags] using shown
    simpa [Option.guard, api] using describesField_arrange named described

/-- The entry of a method gives a member if it is accessible and neither a constructor nor what makes the class
ready. -/
theorem rel_accessibleMethod? {found : Option Member} (h : accessibleMethod? pool className entry = .ok found) :
    Option.Rel (fun entry m => DescribesMethod pool className entry m.arrange)
      (Option.guard (fun entry => isApiMethod entry.flags && !entry.isNamed pool classInitName &&
        !entry.isNamed pool constructorName) entry) (found.filter (·.kind = .method)) ∧
    Option.Rel (fun entry m => DescribesConstructor pool className entry m.arrange)
      (Option.guard (fun entry => isApiMethod entry.flags && entry.isNamed pool constructorName) entry)
      (found.filter (·.kind = .constructor)) := by
  obtain ⟨name, named, cases⟩ := accessibleMethod?_cases h
  have isNamed (other : List Char) : entry.isNamed pool other = decide (name = other) := by
    simp [MemberEntry.isNamed, named, Except.toOption, beq_eq_decide]
  rw [isHidden_methodFlags] at cases
  simp only [Option.guard, isNamed]
  rcases cases with ⟨out, rfl⟩ | ⟨plain, shown, m, rfl, described⟩
  -- what makes the class ready is no constructor, so nothing need be asked of it there
  · rcases out with rfl | hidden
    · simp [show classInitName ≠ constructorName by decide]
    · simp [show isApiMethod entry.flags = false by simpa using hidden]
  · have api : isApiMethod entry.flags := by simpa using shown
    rcases describesMethod_arrange named described with ⟨constructs, describes⟩ | ⟨other, describes⟩
    · have kind : m.kind = .constructor := describes.kind
      simpa [api, constructs, Option.filter_some, kind] using describes
    · have kind : m.kind = .method := describes.kind
      simpa [api, plain, other, Option.filter_some, kind] using describes

/-! ### What is captured -/

/-- The set of exactly the texts with a property, or none if there are none. -/
def IsSetOf (set : Option (Ordered.Set String)) (P : String → Prop) : Prop :=
  (set = none ↔ ∀ text, ¬P text) ∧ ∀ names ∈ set, ∀ text, text ∈ names.toList ↔ P text

/-- The table of bits of a class and the bits that count for it: those of the last row about the class itself, or
those of its class file if there is no such row. -/
def ownBits (c : ClassFile) (name : List Char) (rows : List NestedRow) : List (UInt16 × Modifier) × UInt16 :=
  match (rows.filter (·.isOwn c.pool name)).getLast? with
  | some row => (nestedFlags, row.flags)
  | none => (classFlags, c.flags)

/-- What is described of the class of this name holds exactly what is accessible in its class file, whose table of
nested classes has these rows. -/
structure Captures (c : ClassFile) (name : List Char) (rows : List NestedRow) (d : ClassDescription) : Prop where
  named : d.name = String.ofList name
  fields : Multiset.Rel (DescribesField c.pool d.name) ↑(c.fields.filter fun entry => isApi entry.flags) ↑d.fields
  methods : Multiset.Rel (DescribesMethod c.pool d.name)
    ↑(c.methods.filter fun entry => isApiMethod entry.flags && !entry.isNamed c.pool classInitName &&
      !entry.isNamed c.pool constructorName) ↑d.methods
  constructors : Multiset.Rel (DescribesConstructor c.pool d.name)
    ↑(c.methods.filter fun entry => isApiMethod entry.flags && entry.isNamed c.pool constructorName) ↑d.constructors
  nested : Multiset.Rel (DescribesNested c.pool d.name)
    ↑(rows.filter fun row => row.isInside c.pool name && isApi row.flags) ↑d.nested
  hiddenFields : IsSetOf d.hiddenFields fun text =>
    ∃ entry ∈ c.fields, isApi entry.flags = false ∧ c.pool.text entry.name = .ok text.toList
  hiddenClasses : IsSetOf d.hiddenClasses fun text =>
    ∃ row ∈ rows, row.isInside c.pool name ∧ isApi row.flags = false ∧ c.pool.text row.simpleName = .ok text.toList
  modifiers : ∀ k, d.modifiers.has k ↔ (bitsOf (c.ownBits name rows).1 k).any (isSet (c.ownBits name rows).2) ∨
    k = .abstract ∧ isSet (c.ownBits name rows).2 0x0200
  canonical : d.canonicalize = d

theorem isSetOf_nonempty? {names : Ordered.Set String} {P : String → Prop} (h : ∀ text, text ∈ names.toList ↔ P text) :
    IsSetOf (ClassDescription.nonempty? (some names)) P := by
  cases empty : names.isEmpty with
  | true =>
    have none : ∀ text, ¬P text := fun text holds => by
      have mem := (h text).2 holds
      rw [List.isEmpty_iff.1 empty] at mem
      cases mem
    simpa [IsSetOf, ClassDescription.nonempty?, empty] using none
  | false =>
    obtain ⟨text, mem⟩ := List.exists_mem_of_ne_nil names.toList fun nil => by
      simp [Ordered.Set.isEmpty, nil] at empty
    have some : ∃ text, P text := ⟨text, (h text).1 mem⟩
    simpa [IsSetOf, ClassDescription.nonempty?, empty, h] using some

/-- Found members are what is described, whatever their order. -/
theorem rel_sortMembers {α : Type} {R : α → Member → Prop} {l : List α} {ms : List Member}
    (h : List.Forall₂ (fun a m => R a m.arrange) l ms) : Multiset.Rel R ↑l ↑(ClassDescription.sortMembers ms) := by
  rw [Multiset.coe_eq_coe.2 (ClassDescription.sortMembers_perm ms)]
  exact rel_of_forall₂ (List.forall₂_map_right_iff.2 h)

/-- The names that are kept of fields are those of the fields that are not accessible. -/
theorem mem_hiddenNames {entries : List MemberEntry} {found : List (String ⊕ Member)}
    (h : entries.mapM (fieldOrName pool className) = .ok found) (text : String) :
    text ∈ found.filterMap Sum.getLeft? ↔
      ∃ entry ∈ entries, isApi entry.flags = false ∧ pool.text entry.name = .ok text.toList := by
  simp only [List.mem_filterMap, Sum.getLeft?_eq_some_iff]
  constructor
  · rintro ⟨_, inFound, rfl⟩
    obtain ⟨entry, inFile, described⟩ := exists_of_mem_mapM h inFound
    obtain ⟨name, named, ⟨hidden, same⟩ | ⟨-, m, same, -⟩⟩ := fieldOrName_cases described
    · obtain rfl := Sum.inl.inj same
      exact ⟨entry, inFile, by simpa [isHidden_fieldFlags] using hidden, by rw [named, String.toList_ofList]⟩
    · cases same
  · rintro ⟨entry, inFile, closed, named⟩
    obtain ⟨one, inFound, described⟩ := exists_mem_of_mapM h inFile
    obtain ⟨name, named', ⟨-, rfl⟩ | ⟨shown, -⟩⟩ := fieldOrName_cases described
    · obtain rfl := Except.ok.inj (named.symm.trans named')
      exact ⟨_, inFound, by rw [String.ofList_toList]⟩
    · simp [isHidden_fieldFlags, closed] at shown

variable {p : Parts} {c : ClassFile} {name : List Char}

/-- The modifiers of a class are those of the bits that count for it; interfaces are abstract. -/
theorem has_modifiers {rows : List NestedRow}
    (h : p.nested.modifiers = ((rows.filter (·.isOwn c.pool name)).getLast?.map fun row =>
      modifiersOf nestedFlags row.flags).getD (modifiersOf classFlags c.flags)) (k : Modifier) :
    p.modifiers.has k ↔ (bitsOf (c.ownBits name rows).1 k).any (isSet (c.ownBits name rows).2) ∨
      k = .abstract ∧ isSet (c.ownBits name rows).2 0x0200 := by
  have own : p.nested.modifiers = modifiersOf (c.ownBits name rows).1 (c.ownBits name rows).2 := by
    rw [h, ownBits]
    cases (rows.filter (·.isOwn c.pool name)).getLast? <;> rfl
  have bits : bitsOf (c.ownBits name rows).1 .interface = [0x0200] := by
    rw [ownBits]
    cases (rows.filter (·.isOwn c.pool name)).getLast? <;> rfl
  have interface : p.isInterface = isSet (c.ownBits name rows).2 0x0200 := by
    rw [Parts.isInterface, own, has_modifiersOf, bits]
    simp
  rw [Parts.modifiers, interface, own]
  cases isSet (c.ownBits name rows).2 0x0200 with
  | true => simp [has_modifiersOf, @eq_comm _ k]
  | false => simp [has_modifiersOf]

/-- What is found in a class file is captured. -/
theorem Parts.FoundIn.captures (found : p.FoundIn c name) :
    ∃ rows, c.pool.attributeValue? "InnerClasses" (counted NestedRow.decode) c.attributes = .ok rows ∧
      Captures c name (rows.getD []) (p.description (String.ofList name)) := by
  obtain ⟨rows, table, walk⟩ := found.nested
  have adds := NestedPart.addsUp_of_foldlM walk
  have filed (kind : MemberKind) := p.members_description (String.ofList name) kind
  have fields : (p.description (String.ofList name)).fields =
      ClassDescription.sortMembers (p.fields.filterMap Sum.getRight?) := filed .field
  have methods : (p.description (String.ofList name)).methods =
      ClassDescription.sortMembers (p.methods.filterMap (·.filter (·.kind = .method))) :=
    (filed .method).trans (congrArg _ List.filter_filterMap)
  have constructors : (p.description (String.ofList name)).constructors =
      ClassDescription.sortMembers (p.methods.filterMap (·.filter (·.kind = .constructor))) :=
    (filed .constructor).trans (congrArg _ List.filter_filterMap)
  refine ⟨rows, table, rfl, ?_, ?_, ?_, ?_, ?_, ?_, has_modifiers adds.modifiers, ?_⟩
  · rw [fields]
    exact rel_sortMembers (forall₂_of_mapM found.fields fun _ _ h => rel_fieldOrName h)
  · rw [methods]
    exact rel_sortMembers (forall₂_of_mapM found.methods fun _ _ h => (rel_accessibleMethod? h).1)
  · rw [constructors]
    exact rel_sortMembers (forall₂_of_mapM found.methods fun _ _ h => (rel_accessibleMethod? h).2)
  · obtain ⟨ms, given, same⟩ := adds.members
    have nested : (p.description (String.ofList name)).nested = ClassDescription.sortMembers ms :=
      (filed .nested).trans (congrArg _ same)
    have shown : (fun row : NestedRow => row.isInside c.pool name && isApi row.flags) = (·.isShown c.pool name) :=
      funext fun row => by rw [NestedRow.isShown, isHidden_nestedFlags, Bool.not_not]
    rw [nested, shown]
    exact rel_sortMembers (given.imp fun _ _ => describesNested_arrange)
  · exact isSetOf_nonempty? fun text => Ordered.Set.mem_ofList.trans (mem_hiddenNames found.fields text)
  · refine isSetOf_nonempty? fun text => (adds.hidden text).trans ?_
    have nothing : text ∉ (∅ : Ordered.Set String).toList := List.not_mem_nil
    simp [nothing, NestedRow.isKeptBack, isHidden_nestedFlags, and_assoc]
  · rw [p.description_eq, ClassDescription.canonicalize_canonicalize]

/-- **What is captured is what is accessible.** -/
theorem parse_captures {bytes : List UInt8} {d : ClassDescription} (h : parse bytes = .ok d)
    (noModule : d.moduleInfo = none) :
    ∃ c rest name rows, decode bytes = .ok (c, rest) ∧ c.pool.className c.thisClass = .ok name ∧
      c.pool.attributeValue? "InnerClasses" (counted NestedRow.decode) c.attributes = .ok rows ∧
      Captures c name (rows.getD []) d := by
  obtain ⟨c, rest, name, decoded, named, described⟩ := parse_cases h
  rw [describe] at described
  split at described
  · obtain ⟨m, -, rfl⟩ := map_eq_ok_iff.1 described
    cases noModule
  · obtain ⟨p, found, rfl⟩ := describeClass_cases described
    obtain ⟨rows, table, captures⟩ := found.captures
    exact ⟨c, rest, name, rows, decoded, named, table, captures⟩

/-- The class file of `a.A$B` with a public and a private field, code that makes it ready, a method with a bridge, and
rows about itself around those of a public class in it and of one that the compiler made. -/
def guardedFile : ClassFile :=
  let text (s : String) : Option PoolEntry := some (.text (s.toList.flatMap String.utf8EncodeChar))
  { minor := 0
    major := 52
    pool := [text "a/A$B", some (.classRef 1), text "a/A", some (.classRef 3), text "a/A$B$C", some (.classRef 5),
      text "a/A$B$D", some (.classRef 7), text "B", text "C", text "D", text "x", text "y", text "I", text "f",
      text "()V", text "<clinit>", text "InnerClasses"]
    flags := 0x20
    thisClass := 2
    superclass := 0
    interfaces := []
    fields := [⟨0x0041, 12, 14, []⟩, ⟨0x0002, 13, 14, []⟩]
    methods := [⟨0x0009, 17, 16, []⟩, ⟨0x0081, 15, 16, []⟩, ⟨0x0041, 15, 16, []⟩]
    attributes := [⟨18, encodeCounted NestedRow.encode
      [⟨2, 4, 9, 0x0002⟩, ⟨6, 2, 10, 0x0009⟩, ⟨8, 2, 11, 0x1001⟩, ⟨2, 4, 9, 0x020C⟩]⟩] }

/-- One field, one method and one nested class are described, and the modifiers are those of the last row about the
class itself. -/
theorem parse_captures_guardedFile : ∃ d, parse guardedFile.encode = .ok d ∧ d.moduleInfo = none ∧
    (∃ c rest name rows, decode guardedFile.encode = .ok (c, rest) ∧ c.pool.className c.thisClass = .ok name ∧
      c.pool.attributeValue? "InnerClasses" (counted NestedRow.decode) c.attributes = .ok rows ∧
      Captures c name (rows.getD []) d) ∧
    [d.hiddenFields, d.hiddenClasses].map (Option.map (·.toList)) = [some ["y"], some ["D"]] ∧
    d.modifiers.keywords = ["protected", "abstract", "static", "interface"] ∧
    [d.fields, d.methods, d.nested].map (List.map (·.name)) = [["x"], ["f"], ["a.A$B$C"]] := by
  have known : (parse guardedFile.encode).toOption.map (fun d => (d.moduleInfo.isNone,
      [d.hiddenFields, d.hiddenClasses].map (Option.map (·.toList)), d.modifiers.keywords,
      [d.fields, d.methods, d.nested].map (List.map (·.name)))) =
      some (true, [some ["y"], some ["D"]], ["protected", "abstract", "static", "interface"],
        [["x"], ["f"], ["a.A$B$C"]]) := by
    decide +kernel
  obtain ⟨d, parsed, facts⟩ := Option.map_eq_some_iff.1 known
  rw [toOption_eq_some_iff] at parsed
  simp only [Prod.mk.injEq, Option.isNone_iff_eq_none] at facts
  obtain ⟨noModule, rest⟩ := facts
  exact ⟨d, parsed, noModule, parse_captures parsed noModule, rest⟩

end ApiSurface.ClassFile
