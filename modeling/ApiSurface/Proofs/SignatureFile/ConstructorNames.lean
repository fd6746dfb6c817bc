import ApiSurface.Proofs.ClassFile.Described
import ApiSurface.Proofs.Legacy.TypedLine
import ApiSurface.Proofs.SignatureFile.Sections

/-!
Names of constructors. A constructor that comes from a class file has the simple name of its class. One that comes from
a signature file has the name that its line spells, and nothing compares the two. The oldest format spells a name of
its own for all of them, which becomes the simple name. Main statements: which name a constructor line has
(`spellsCall_of_parseMember`), that a constructor of a class comes from such a line of its block (`SpelledIn.of_addAll`),
and all of it together (`constructors_named`).
-/

namespace ApiSurface

open ApiSurface.Text ApiSurface.Line

/-! ### One line -/

namespace Line

/-- A call of this name is spelled on the line: behind a space there is the name, and right behind that its arguments
begin. -/
def SpellsCall (name line : List Char) : Prop :=
  '(' ∉ name ∧ ∃ before behind, line = before ++ ' ' :: (name ++ '(' :: behind)

theorem SpellsCall.of_suffix {name line rest : List Char} (h : SpellsCall name rest) (part : rest <:+ line) :
    SpellsCall name line := by
  obtain ⟨lead, rfl⟩ := part
  obtain ⟨free, before, behind, rfl⟩ := h
  exact ⟨free, lead ++ before, behind, by simp⟩

/-- A token with arguments, behind another one. -/
theorem spellsCall_of_taken {line cs t rest name arguments : List Char} (taken : Taken cs t rest) (starts : AtSpace cs)
    (cut : splitCall line t = .ok (name, arguments)) : SpellsCall name cs := by
  obtain ⟨rfl, sound⟩ := of_splitCall taken.token cut
  obtain ⟨lead, whole⟩ := taken.exists_space starts
  exact ⟨sound.free, lead, arguments ++ [')'] ++ rest, by rw [whole]; simp [callToken]⟩

/-- A constructor has the name that is spelled on its line. -/
theorem spellsCall_of_parseMember {className : String} {line : List Char} {m : Member}
    (h : parseMember .constructor className line = .ok m) : SpellsCall m.name.toList line := by
  obtain ⟨tag, cs, set, rest, name, detail, tagged, read, inner, rfl⟩ := parseMember_eq_ok_iff.1 h
  simp only [detailRest, constructorRest, bind_eq_ok_iff] at inner
  obtain ⟨⟨t, behind⟩, first, ⟨parameters, call, last⟩, listed, ⟨simple, arguments⟩, cut,
    ⟨exceptions, tail⟩, -, _, -, inner⟩ := inner
  cases inner
  have taken := taken_of_token tagged
  have marked := of_modifiers read
  have outer := taken_of_token first
  have starts : AtSpace rest := marked.atSpace taken.atSpace
  have whole : rest <:+ line := marked.suffix.trans taken.suffix
  rw [String.toList_ofList]
  simp only [typeParameters?] at listed
  split_ifs at listed with list
  · -- the name is behind type parameters
    obtain ⟨⟨u, after⟩, second, same⟩ := map_eq_ok_iff.1 listed
    cases same
    exact (spellsCall_of_taken (taken_of_token second) outer.atSpace cut).of_suffix (outer.suffix.trans whole)
  · cases listed
    exact (spellsCall_of_taken outer starts cut).of_suffix whole

end Line

/-! ### The oldest format -/

namespace Legacy.TypedLine

variable {className : String}

/-- A line of the oldest format, with types as descriptors, is read with its constructor renamed, and nothing else of it
is. -/
theorem decodeAll_oldest {l : TypedLine} (h : l.IsLine IsSourceType) (constructs : l.memberKind = .constructor) :
    LegacyRule.decodeAll className Format.v21.rules (l.map arrayToDescriptor).text =
      .ok (some (l.rename initName (simpleName className).toList).text) := by
  have old : (l.map arrayToDescriptor).front = l.front ∧ (l.map arrayToDescriptor).memberKind = l.memberKind := by
    cases l <;> exact ⟨rfl, rfl⟩
  have new (name : List Char) : (l.rename initName name).front = l.front ∧
      (l.rename initName name).memberKind = l.memberKind := by
    cases l <;> exact ⟨rfl, rfl⟩
  have noNull : (l.map arrayToDescriptor).text ≠ nullSuperLine.toList := by
    intro same
    have listed := kind_text (l := l.map arrayToDescriptor) (by rw [old.1, old.2]; exact h.front)
    rw [same, old.2, constructs] at listed
    exact absurd listed (by decide)
  have noField : LineKind.of (l.rename initName (simpleName className).toList).text ≠ .member .field := by
    rw [kind_text (by rw [(new _).1, (new _).2]; exact h.front), (new _).2, constructs]
    simp
  have null : LegacyRule.nullSuper.decode className (l.map arrayToDescriptor).text =
      .ok (some (l.map arrayToDescriptor).text) := by
    rw [LegacyRule.decode, if_neg noNull]
  have renamed : LegacyRule.initConstructors.decode className l.text =
      .ok (some (l.rename initName (simpleName className).toList).text) := by
    have free : '(' ∉ initName := by decide
    rw [LegacyRule.decode, renameConstructor_text h.typeWords free, map_ok]
  have valued : LegacyRule.encodedConstants.decode className (l.rename initName (simpleName className).toList).text =
      .ok (some (l.rename initName (simpleName className).toList).text) := by
    rw [LegacyRule.decode, LegacyRule.decodeField_eq_self noField, map_ok]
  have rules : Format.v21.rules = [.nullSuper, .vmArrays, .initConstructors, .encodedConstants] := rfl
  simp only [rules, LegacyRule.decodeAll, null, (encode_decode className h).2, renamed, valued]

end Legacy.TypedLine

/-! ### Blocks -/

namespace SignatureFile

variable {active : Feature → Bool} {d e : ClassDraft} {line : BlockLine} {lines : List BlockLine} {m : Member}

/-- A constructor of this class with the name that was read from one of these lines. -/
structure SpelledIn (className : String) (lines : List BlockLine) (m : Member) : Prop where
  declaring : m.declaringClass = className
  spelled : ∃ line ∈ lines, line.kind = .member .constructor ∧
    ∃ read, parseMember .constructor className line.text = .ok read ∧ read.name = m.name

/-- A constructor that was there before, but for its annotations. -/
def SameName (ms : List Member) (m : Member) : Prop :=
  ∃ n ∈ ms, m.name = n.name ∧ m.declaringClass = n.declaringClass

/-- One line: a constructor was there before, or the line is its own. -/
theorem SpelledIn.of_add (added : d.add active line = .ok e) (mem : m ∈ e.description.members .constructor) :
    SameName (d.description.members .constructor) m ∨ SpelledIn d.description.name [line] m := by
  rcases add_cases added with ⟨use, -, -, rfl⟩ | ⟨kind, read, isMember, parsed, rfl⟩ | ⟨-, -, -, members, -⟩
  · rw [members_annotate] at mem
    split at mem
    · rcases mem_annotateLast mem with old | ⟨n, old, rfl⟩
      · exact .inl ⟨m, old, rfl, rfl⟩
      · exact .inl ⟨n, old, rfl, rfl⟩
    · exact .inl ⟨m, mem, rfl, rfl⟩
  · let given := if active .constInfo then read else read.withoutConstant
    have filed : given.kind = kind := (shape_of_parseMember active parsed).1
    have mem : m ∈ (d.description.updateMembers given.kind (· ++ [given])).members .constructor := mem
    rcases ClassDescription.mem_members_updateMembers mem with old | ⟨same, new⟩
    · exact .inl ⟨m, old, rfl, rfl⟩
    rw [filed] at same new
    subst same
    rcases List.mem_append.1 new with old | new
    · exact .inl ⟨m, old, rfl, rfl⟩
    · -- without its constant a member has the name that it had
      obtain rfl := List.mem_singleton.1 new
      have kept : given.name = read.name ∧ given.declaringClass = read.declaringClass := by
        simp only [given]
        split
        · exact ⟨rfl, rfl⟩
        · obtain ⟨declaring, name, set, uses, detail⟩ := read
          cases detail <;> exact ⟨rfl, rfl⟩
      exact .inr ⟨kept.2.trans (readMember_of_parseMember parsed).declaring, line, by simp, isMember, read, parsed,
        kept.1.symm⟩
  · exact .inl ⟨m, members ▸ mem, rfl, rfl⟩

theorem SpelledIn.mono {className : String} {more : List BlockLine} (h : SpelledIn className lines m)
    (part : lines ⊆ more) : SpelledIn className more m := by
  obtain ⟨declaring, line, inLines, spelled⟩ := h
  exact ⟨declaring, line, part inLines, spelled⟩

/-- All lines: a constructor was there before, or one of the lines is its own. -/
theorem SpelledIn.of_addAll (read : d.addAll active lines = .ok e) (mem : m ∈ e.description.members .constructor) :
    SameName (d.description.members .constructor) m ∨ SpelledIn d.description.name lines m := by
  induction lines generalizing d with
  | nil =>
    cases read
    exact .inl ⟨m, mem, rfl, rfl⟩
  | cons line lines ih =>
    rw [ClassDraft.addAll] at read
    cases added : d.add active line with
    | error fault =>
      rw [added] at read
      cases read
    | ok next =>
      rw [added] at read
      rcases ih read with ⟨n, inNext, name, declaring⟩ | later
      · rcases SpelledIn.of_add added inNext with ⟨o, inOld, same⟩ | ⟨own, first, inFirst, listed, parsed, read, named⟩
        · exact .inl ⟨o, inOld, name.trans same.1, declaring.trans same.2⟩
        · exact .inr ⟨declaring.trans own, first, by simp [List.mem_singleton.1 inFirst], listed, parsed, read,
            named.trans name.symm⟩
      · rw [name_of_add added] at later
        exact .inr (later.mono (List.subset_cons_self _ _))

/-- A constructor of a class that was read has the name that one of the lines behind the first one spells, once it is
decoded. -/
theorem spelled_of_readClass {f : Format} (known : f ∈ Format.newestFirst) {n : Nat} {cs : List Char}
    {rest left : List SourceLine} {c : ClassDescription} (read : readClass f active n cs rest = (.ok c, left))
    (mem : m ∈ c.members .constructor) :
    m.declaringClass = c.name ∧ ∃ k old new, .text k old ∈ rest ∧ LineKind.of old = .member .constructor ∧
      LegacyRule.decodeAll c.name f.rules old = .ok (some new) ∧
      ∃ read, parseMember .constructor c.name new = .ok read ∧ read.name = m.name := by
  obtain ⟨header, lines, d, -, gathered, added, rfl⟩ := exists_of_readClass read
  have name : d.description.name = header.name := name_of_addAll added
  obtain ⟨whole, -, rfl, -⟩ := gathered_of_gatherClass known gathered
  rcases SpelledIn.of_addAll added mem with ⟨o, none, -⟩ | ⟨declaring, line, inBlock, listed, read, parsed, named⟩
  · cases none
  · obtain ⟨source, inClass, kept⟩ := List.mem_filterMap.1 inBlock
    have inRest : source ∈ rest := (List.takeWhile_sublist _).subset inClass
    unfold survivor? at kept
    split at kept
    · cases kept
    · rename_i k old
      split at kept
      · cases kept
      · split at kept
        · rename_i new decoded
          cases kept
          rw [name]
          exact ⟨declaring, k, old, new, inRest, listed, decoded, read, parsed, named⟩
        · cases kept
        · cases kept

end SignatureFile

/-! ### Class files -/

namespace ClassFile

/-- A constructor that a class file describes has the simple name of its class. -/
theorem constructor_of_parse {bytes : List UInt8} {d : ClassDescription} (h : parse bytes = .ok d) {m : Member}
    (mem : m ∈ d.members .constructor) : m.declaringClass = d.name ∧ m.name = simpleName d.name := by
  obtain ⟨c, rest, name, -, -, described⟩ := parse_cases h
  unfold describe at described
  split at described
  · obtain ⟨info, -, rfl⟩ := map_eq_ok_iff.1 described
    cases mem
  · obtain ⟨p, found, rfl⟩ := describeClass_cases described
    rw [Parts.members_description, ClassDescription.mem_sortMembers] at mem
    obtain ⟨n, inParts, rfl⟩ := mem
    obtain ⟨inMethods, constructs⟩ := List.mem_filter.1 inParts
    obtain ⟨_, inMethods, rfl⟩ := List.mem_filterMap.1 inMethods
    obtain ⟨entry, -, accessible⟩ := exists_of_mem_mapM found.methods inMethods
    obtain ⟨methodName, -, ⟨-, hidden⟩ | ⟨-, -, k, same, method⟩⟩ := accessibleMethod?_cases accessible
    · cases hidden
    · obtain rfl := Option.some.inj same
      obtain ⟨types, default, own, uses, -, -, -, -, ⟨-, rfl⟩ | ⟨-, rfl⟩⟩ := describeMethod_cases method
      · exact ⟨rfl, rfl⟩
      · cases of_decide_eq_true constructs

end ClassFile

/-! ### Both -/

open SignatureFile

/-- **Names of constructors.** From a class file they are the simple name of the class. From a signature file of any
format, they are what the lines of the class spell in front of the arguments, once they are decoded; but for the oldest
format that is the line itself. A line of the oldest format with the name that it has for all constructors is read
with the simple name, and with any other name as it is. -/
theorem constructors_named {f : Format} (known : f ∈ Format.newestFirst) (lines : List SourceLine)
    (bytes : List UInt8) (className : String) :
    (∀ d, ClassFile.parse bytes = .ok d → ∀ m ∈ d.members .constructor,
      m.declaringClass = d.name ∧ m.name = simpleName d.name) ∧
    (∀ cs r, (Reader.ofFormat f lines).readAll = (.ok cs, r) →
      ∀ c ∈ cs, ∀ m ∈ c.members .constructor, m.declaringClass = c.name ∧
        ∃ k old new, .text k old ∈ lines ∧ LineKind.of old = .member .constructor ∧
          LegacyRule.decodeAll c.name f.rules old = .ok (some new) ∧ (f ≠ .v21 → new = old) ∧
          (∃ read, parseMember .constructor c.name new = .ok read ∧ read.name = m.name) ∧
          SpellsCall m.name.toList new) ∧
    (∀ start name arguments rest,
      (Legacy.TypedLine.constructor start name arguments rest).IsLine Legacy.IsSourceType →
        LegacyRule.decodeAll className Format.v21.rules
            (Legacy.TypedLine.constructor start name (arguments.map Legacy.arrayToDescriptor) rest).text =
          .ok (some (Legacy.TypedLine.constructor start
            (if name = Legacy.initName then (simpleName className).toList else name) arguments rest).text)) := by
  refine ⟨fun d parsed m mem => ClassFile.constructor_of_parse parsed mem, fun cs r read c inFile m mem => ?_,
    fun start name arguments rest line => Legacy.TypedLine.decodeAll_oldest line rfl⟩
  obtain ⟨info, rfl, -⟩ | ⟨n, cs', rest, left, part, read⟩ := (readFrom_of_readAll read).2 c inFile
  · cases mem
  · obtain ⟨declaring, k, old, new, inRest, listed, decoded, read, parsed, named⟩ :=
      spelled_of_readClass known read mem
    refine ⟨declaring, k, old, new, part.subset (List.mem_cons_of_mem _ inRest), listed, decoded, fun newer => ?_,
      ⟨read, parsed, named⟩, named ▸ spellsCall_of_parseMember parsed⟩
    have plain : ∀ f ∈ Format.newestFirst, f ≠ .v21 → f.rules = [] ∨ f.rules = [.encodedConstants] := by decide
    rcases plain f known newer with rules | rules
    · rw [rules] at decoded
      exact (Option.some.inj (Except.ok.inj decoded)).symm
    · have noField : LineKind.of old ≠ .member .field := by rw [listed]; simp
      rw [rules] at decoded
      simp only [LegacyRule.decodeAll, LegacyRule.decode, LegacyRule.decodeField_eq_self noField, map_ok] at decoded
      exact (Option.some.inj (Except.ok.inj decoded)).symm

/-- A class of the oldest format with two constructors, the second one of another name. -/
def oldBuilder : List SourceLine :=
  numbered 1 (["#Signature file v2.1", "version ", "", "CLSS public a.B", "SUPR null", "CONS public <init>([I)",
    "CONS private Make(int)"].map String.toList)

/-- That class. -/
def builder : ClassDescription :=
  { ClassDescription.named "a.B" (.ofList [.public]) with
    constructors := [⟨"a.B", "B", .ofList [.public], [], .constructor none "int[]" []⟩,
      ⟨"a.B", "Make", .ofList [.private], [], .constructor none "int" []⟩] }

/-- The class file of `a.B` with a public constructor without arguments. -/
def builderBytes : List UInt8 :=
  [0xCA, 0xFE, 0xBA, 0xBE, 0, 0, 0, 52, 0, 7, 1, 0, 3, 97, 47, 66, 7, 0, 1, 1, 0, 16, 106, 97, 118, 97, 47, 108, 97,
    110, 103, 47, 79, 98, 106, 101, 99, 116, 7, 0, 3, 1, 0, 6, 60, 105, 110, 105, 116, 62, 1, 0, 3, 40, 41, 86, 0, 33,
    0, 2, 0, 4, 0, 0, 0, 0, 0, 1, 0, 1, 0, 5, 0, 6, 0, 0, 0, 0]

/-- The name of all constructors is read as the simple name, and any other one as it is. -/
theorem constructors_named_builder :
    (∃ d, ClassFile.parse builderBytes = .ok d ∧ d.members .constructor ≠ [] ∧
      ∀ m ∈ d.members .constructor, m.declaringClass = d.name ∧ m.name = simpleName d.name) ∧
    (∃ r, (Reader.ofFormat .v21 oldBuilder).readAll = (.ok [builder], r) ∧
      ∀ m ∈ builder.members .constructor, m.declaringClass = "a.B" ∧
        ∃ k old new, .text k old ∈ oldBuilder ∧ LineKind.of old = .member .constructor ∧
          LegacyRule.decodeAll "a.B" Format.v21.rules old = .ok (some new) ∧ SpellsCall m.name.toList new) ∧
    LegacyRule.decodeAll "a.B" Format.v21.rules "CONS public <init>([I)".toList = .ok (some "CONS public B(int[])".toList)
    := by
  obtain ⟨bytecode, files, oldLines⟩ := constructors_named (f := .v21) (by decide) oldBuilder builderBytes "a.B"
  refine ⟨?_, ?_, ?_⟩
  · have given : (ClassFile.parse builderBytes).toOption.map (fun d => (d.members .constructor).length) = some 1 := by
      decide +kernel
    obtain ⟨d, found, one⟩ := Option.map_eq_some_iff.1 given
    have parsed : ClassFile.parse builderBytes = .ok d := toOption_eq_some_iff.1 found
    exact ⟨d, parsed, List.ne_nil_of_length_eq_add_one one, bytecode d parsed⟩
  · have read : (Reader.ofFormat .v21 oldBuilder).readAll =
        (.ok [builder], (Reader.ofFormat .v21 oldBuilder).readAll.2) := by rfl
    refine ⟨_, read, fun m mem => ?_⟩
    obtain ⟨declaring, k, old, new, inFile, listed, decoded, -, -, spelled⟩ :=
      files _ _ read builder (by simp) m mem
    exact ⟨declaring, k, old, new, inFile, listed, decoded, spelled⟩
  · have lead : Legacy.IsLead .constructor "CONS public ".toList := .keyword (m := .public) .tag rfl
    have type : Legacy.IsSourceType "int[]".toList := ⟨by decide, by decide, ⟨by decide, by decide⟩, rfl⟩
    have line : (Legacy.TypedLine.constructor "CONS public ".toList Legacy.initName ["int[]".toList] []).IsLine
        Legacy.IsSourceType :=
      ⟨.lead lead, ⟨by decide, rfl⟩, by simpa using type, ⟨by simp [AtSpace], _, rfl⟩⟩
    exact oldLines _ _ _ _ line

/-- A class of the newest format whose constructor is called like none of its own. -/
def misnamed : List SourceLine :=
  numbered 1 (["#Signature file v4.3", "version ", "", "CLSS public a.B", "CONS public Wrong()"].map String.toList)

/-- A constructor that was read may have another name than its class. -/
theorem name_ne_simpleName_misnamed :
    ∃ c r, (Reader.ofFormat .v43 misnamed).readAll = (.ok [c], r) ∧ c.name = "a.B" ∧ simpleName c.name = "B" ∧
      (c.members .constructor).map Member.name = ["Wrong"] :=
  ⟨_, _, rfl, rfl, by decide, rfl⟩

end ApiSurface
