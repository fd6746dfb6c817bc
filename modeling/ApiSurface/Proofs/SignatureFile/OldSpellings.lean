import ApiSurface.Proofs.Legacy.Oldest
import ApiSurface.Proofs.SignatureFile.Downgrade

/-!
The formats with old spellings. Of a class they keep what their features leave of it, and their spellings do
not show in what is read. Main statement: a class of source that fits the spellings of an old format is
written in it, and what is read from the file has in the newest format the lines that the class has there
without the features that the old one lacks (`Writer.classLines_throughOld`). What does not fit is a constant
that is no literal of the type that is written, and, where arrays are descriptors, a default that leaves a
quote or a bracket open (`Writer.classLines_ofOld_ne`).
-/

namespace ApiSurface

open ApiSurface.Text ApiSurface.Line ApiSurface.Legacy ApiSurface.SignatureFile ClassDescription

namespace Format

/-- The formats with old spellings. -/
def old : List Format := [v31, v21]

/-- The features of the newest format that a format lacks. -/
def lacking (f : Format) : List Feature := v43.features.filter (!f.supports ·)

/-- An old format is known, and hidden names are not listed in it. -/
theorem of_old {f : Format} (old : f ∈ Format.old) : f ∈ newestFirst ∧ f.supports .listOfHiders = false := by
  simp only [Format.old, List.mem_cons, List.not_mem_nil, or_false] at old
  rcases old with rfl | rfl <;> decide

/-- All that the old formats carry is carried by the newest one. -/
theorem supports_of_old {f : Format} (old : f ∈ Format.old) (x : Feature) :
    (v43.supports x && !f.lacking.contains x) = f.supports x := by
  simp only [Format.old, List.mem_cons, List.not_mem_nil, or_false] at old
  rcases old with rfl | rfl <;> cases x <;> decide

end Format

/-! ### Classes that fit -/

namespace ClassDescription

variable {active : Feature → Bool} {c : ClassDescription}

/-- A class without its hidden names. -/
def withoutHidden (c : ClassDescription) : ClassDescription := { c with hiddenFields := none, hiddenClasses := none }

/-- Where hidden names are not listed, a class is kept as if it had none. -/
theorem project_withoutHidden (noHiders : active .listOfHiders = false) (c : ClassDescription) :
    c.withoutHidden.project active = c.project active := by
  have members : c.withoutHidden.declared = c.declared := by
    funext kind
    cases kind <;> rfl
  simp only [project, noHiders, Bool.false_eq_true, if_false, members]
  rfl

/-- A class that the spellings of a format can express, as far as its features keep it. -/
structure FitsSpelling (f : Format) (c : ClassDescription) : Prop where
  /-- A constant is a literal of the type with which the field is written. -/
  literals : HasPlainLiterals ((c.project f.supports).members .field)
  /-- No superclass is written like the line that says that there is none. -/
  superclass : f.hasRule .nullSuper → ∀ m ∈ (c.project f.supports).members .superclass, m.name ≠ "null"
  /-- A default leaves no quote and no bracket open. -/
  defaults : f.hasRule .vmArrays → ∀ m ∈ c.declared .method, ∀ text ∈ m.detail.default?,
    Clear legacyBrackets [] text.toList

/-- What is kept of a class of source that fits is read back from the old spellings. -/
theorem SourceClass.spelled_of_fits {f : Format} (old : f ∈ Format.old) (h : c.SourceClass)
    (noModule : c.moduleInfo = none) (fits : c.FitsSpelling f) : (c.project f.supports).Spelled f.rules := by
  simp only [Format.old, List.mem_cons, List.not_mem_nil, or_false] at old
  rcases old with rfl | rfl
  · exact h.spelled_constants noModule fun m mem type constant detail =>
      (fits.literals m mem type constant detail).toIsLiteralOf
  · exact h.spelled_oldest noModule (by decide) fits.literals (fits.superclass (by decide))
      (fits.defaults (by decide))

theorem FitsSpelling.withoutHidden {f : Format} (noHiders : f.supports .listOfHiders = false)
    (fits : c.FitsSpelling f) : c.withoutHidden.FitsSpelling f := by
  have kept := project_withoutHidden noHiders c
  exact ⟨kept ▸ fits.literals, kept ▸ fits.superclass, fits.defaults⟩

end ClassDescription

/-! ### Through an old format -/

namespace Writer

variable {f : Format} {c : ClassDescription}

/-- A writer of the newest format without what another format lacks. -/
def restricted (f : Format) : Writer :=
  { ofFormat .v43 with features := Format.v43.features.filter fun x => !f.lacking.contains x }

theorem leaveOut_lacking (f : Format) : (ofFormat .v43).leaveOut f.lacking = .ok (restricted f) :=
  leaveOut_eq_ok fun x mem => by
    have listed := (List.mem_filter.1 mem).1
    simpa [Format.supports, ofFormat] using listed

theorem hasFeature_restricted (old : f ∈ Format.old) : (restricted f).hasFeature = f.supports := by
  funext x
  rw [← Format.supports_of_old old, Bool.eq_iff_iff]
  simp [hasFeature, Format.supports, restricted]

/-- What is kept of a class has the lines of the class without what is not kept. -/
theorem classLines_restricted (old : f ∈ Format.old) (erases : c.ErasesThrows f.supports)
    (printable : (c.project f.supports).Printable) :
    ∃ kept, (restricted f).classLines c = .ok kept ∧ (ofFormat .v43).classLines (c.project f.supports) = .ok kept := by
  have carried : (c.project f.supports).Carried (ofFormat .v43).hasFeature :=
    ⟨fun left => absurd left (by decide), fun left => absurd left (by decide)⟩
  have written := classLines_project (w := restricted f) rfl ((hasFeature_restricted old).symm ▸ erases)
  have again : (ofFormat .v43).classLines (c.project f.supports) = _ :=
    classLines_project rfl fun left => absurd left (by decide)
  rw [hasFeature_restricted old] at written
  rw [printable.project_eq carried (by decide)] at again
  exact ⟨_, written, again⟩

/-- **Old spellings do not show.** A class of source that fits the spellings of an old format is written in
it, and from the file is read a class that has in the newest format the lines of the first one without the
features that the old format lacks. -/
theorem classLines_throughOld (old : f ∈ Format.old) (source : c.withoutHidden.SourceClass)
    (noModule : c.moduleInfo = none) (fits : c.FitsSpelling f) :
    ∃ lines text d r w kept, (ofFormat f).classLines c = .ok lines ∧ (ofFormat f).writeAll [c] = .ok text ∧
      (Reader.ofFormat f (ofText text)).readAll = (.ok [d], r) ∧
      (ofFormat .v43).leaveOut f.lacking = .ok w ∧ w.classLines c = .ok kept ∧
      (ofFormat .v43).classLines d = .ok kept := by
  obtain ⟨known, noHiders⟩ := Format.of_old old
  have unhidden := project_withoutHidden noHiders c
  have erases : c.ErasesThrows f.supports := source.erasesThrows
  have printable : (c.project f.supports).Printable := unhidden ▸ source.printable noModule
  have spelled : (c.project f.supports).Spelled f.rules :=
    unhidden ▸ source.spelled_of_fits old noModule (fits.withoutHidden noHiders)
  obtain ⟨e, lines, -, written, -⟩ := classLines_spelled (w := ofFormat f) erases printable spelled
  obtain ⟨text, d, r, file, read, same⟩ := readAll_spelled known noModule erases printable spelled
  obtain ⟨kept, first, second⟩ := classLines_restricted old erases printable
  exact ⟨_, text, d, r, restricted f, kept, written, file, read, leaveOut_lacking f, first,
    classLines_congr same.symm.withoutEmpty second⟩

/-! ### A class that fits -/

end Writer

/-- A generic class with a constant, a constructor and a default that hold brackets. -/
def ClassDescription.shelf : ClassDescription :=
  { named "a.Shelf" (.ofList [.public]) with
    typeParameters := some "<T extends java.lang.Object>"
    fields := [.field "a.Shelf" "LABEL" (.ofList [.static]) "java.lang.String" (some "\"a(\\\"<\"")]
    constructors := [.constructor "a.Shelf" .none "T[],int[]"]
    methods := [⟨"a.Shelf", "get", .none, [], .method none "T[]" "int[][]" [] (some "\"(\"")⟩]
    hiddenFields := some ∅ }

theorem ClassDescription.sourceClass_shelf : shelf.withoutHidden.SourceClass := by
  have text : IsTypeText "java.lang.String".toList := .of_qualified (.of_pieces (by decide)) (by decide)
  have element : JavaType.Legal (.array (.variable ['T'])) := (by decide : IsIdentifier ['T'])
  have number : JavaType.Legal (.array (.primitive .int)) := trivial
  have parameters : IsParametersText "<T extends java.lang.Object>".toList := by
    refine ⟨[⟨['T'], []⟩], fun p mem => ?_, by decide⟩
    obtain rfl := List.mem_singleton.1 mem
    exact ⟨by decide, by simp⟩
  have given : IsArgumentsText "T[],int[]".toList := by
    refine ⟨[.array (.variable ['T']), .array (.primitive .int)], fun t mem => ?_, .inl (by decide)⟩
    simp only [List.mem_cons, List.not_mem_nil, or_false] at mem
    rcases mem with rfl | rfl
    · exact element
    · exact number
  have index : IsArgumentsText "int[][]".toList := by
    refine ⟨[.array (.array (.primitive .int))], fun t mem => ?_, .inl (by decide)⟩
    obtain rfl := List.mem_singleton.1 mem
    exact number
  have value : IsDefaultText (printValue (.string "(")) := .printValue trivial (by decide)
  refine ⟨⟨.of_pieces (by decide), by decide⟩, fun list listed => ?_, fun kind m mem => ?_, fun use mem => ?_,
    fun names listed => ?_, fun names listed => ?_⟩
  · cases listed
    exact parameters
  · cases kind with
    | field =>
      obtain rfl := List.mem_singleton.1 (show m ∈ shelf.fields from mem)
      exact ⟨rfl, ⟨text, by decide, by decide⟩, by simp [Member.field]⟩
    | constructor =>
      obtain rfl := List.mem_singleton.1 (show m ∈ shelf.constructors from mem)
      exact ⟨rfl, ⟨by simp, by decide, given, by simp [AreExceptions]⟩, by simp [Member.constructor]⟩
    | method =>
      obtain rfl := List.mem_singleton.1 (show m ∈ shelf.methods from mem)
      exact ⟨rfl, ⟨by simp, ⟨_, element, by decide, by decide⟩, by decide, index, by simp [AreExceptions],
        fun text given => Option.some.inj given ▸ value⟩, by simp⟩
    | superclass | superinterface | nested => cases mem
  · cases mem
  · cases listed
  · cases listed

theorem ClassDescription.fitsSpelling_shelf : shelf.FitsSpelling .v21 := by
  refine ⟨fun m mem type constant detail => ?_, fun _ m mem => ?_, fun _ m mem text given => ?_⟩
  · rw [members_project] at mem
    obtain ⟨n, declared, rfl⟩ := List.mem_map.1 mem
    obtain rfl := List.mem_singleton.1 (show n ∈ shelf.fields from declared)
    obtain ⟨rfl, same⟩ := Detail.field.inj detail
    obtain rfl := Option.some.inj same
    have string : (keptType Format.v21.supports shelf.scope "java.lang.String").toList = Literal.stringType := by
      decide +kernel
    refine ⟨⟨fun _ => ⟨"a(\"<".toList, by decide⟩, fun char => ?_⟩, fun other => absurd string other⟩
    exact absurd (string.symm.trans char) (by decide)
  · rw [members_project] at mem
    cases mem
  · obtain rfl := List.mem_singleton.1 (show m ∈ shelf.methods from mem)
    obtain rfl := Option.some.inj given
    unfold Clear
    decide

namespace Writer

theorem classLines_throughOld_shelf :
    Format.v21 ∈ Format.old ∧ shelf.withoutHidden.SourceClass ∧ shelf.moduleInfo = none ∧ shelf.FitsSpelling .v21 ∧
    ∃ lines text d r w kept, (ofFormat .v21).classLines shelf = .ok lines ∧
      (ofFormat .v21).writeAll [shelf] = .ok text ∧
      (Reader.ofFormat .v21 (ofText text)).readAll = (.ok [d], r) ∧
      (ofFormat .v43).leaveOut Format.v21.lacking = .ok w ∧ w.classLines shelf = .ok kept ∧
      (ofFormat .v43).classLines d = .ok kept :=
  ⟨by decide, sourceClass_shelf, rfl, fitsSpelling_shelf,
    classLines_throughOld (by decide) sourceClass_shelf rfl fitsSpelling_shelf⟩

end Writer

/-! ### Classes that do not fit -/

/-- A type annotation whose path is a quote, as a value of an annotation. -/
def openQuote : ElementValue := .nested ⟨0, "a.N", [], some ⟨0, none, none, none, "\""⟩⟩

/-- An annotation with this value. -/
def openQuoteUse : AnnotationUse := ⟨0, "a.N", [⟨"a.N", "n", openQuote⟩], none⟩

/-- A class with a method whose default is this value. -/
def ClassDescription.openDefault : ClassDescription :=
  { named "a.M" .none with
    methods := [⟨"a.M", "n", .none, [], .method none "a.N" "" [] (some openQuote.text)⟩] }

/-- A class with a number in a field whose type is a variable for strings. -/
def ClassDescription.numbered : ClassDescription :=
  { named "a.Box" .none with
    typeParameters := some "<T extends java.lang.String>"
    fields := [.field "a.Box" "n" .none "T" (some "5")] }

theorem soundUse_openQuoteUse : Annotated.SoundUse openQuoteUse := by
  have name : Annotated.SoundName "a.N".toList := ⟨by decide, by decide, by decide, by decide⟩
  have type : Annotated.SoundElementType "a.N".toList := .plain (by decide) (by decide) (by decide) (by decide)
  have inner : Annotated.SoundValue openQuote := ⟨name, by simp [Annotated.SoundPlace], trivial⟩
  exact ⟨name, by simp [Annotated.SoundPlace], ⟨type, ⟨by decide, by decide, by decide, by decide⟩, inner⟩, trivial⟩

theorem ClassDescription.sourceClass_openDefault : openDefault.SourceClass := by
  have type : IsTypeText "a.N".toList := .of_qualified (.of_pieces (by decide)) (by decide)
  have nothing : IsArgumentsText "".toList := ⟨[], by simp, .inl rfl⟩
  have value : IsDefaultText openQuote.text.toList := by
    rw [ElementValue.text, String.toList_ofList]
    exact .printValue soundUse_openQuoteUse.2.2.1.2.2 (by decide)
  refine ⟨⟨.of_pieces (by decide), by decide⟩, by simp [openDefault, named], fun kind m mem => ?_,
    by simp [openDefault, named], by simp [openDefault, named], by simp [openDefault, named]⟩
  cases kind with
  | method =>
    obtain rfl := List.mem_singleton.1 (show m ∈ openDefault.methods from mem)
    exact ⟨rfl, ⟨by simp, type, by decide, nothing, by simp [AreExceptions],
      fun text given => Option.some.inj given ▸ value⟩, by simp⟩
  | superclass | superinterface | field | constructor | nested => cases mem

theorem ClassDescription.sourceClass_numbered : numbered.SourceClass := by
  have bound : IsTypeText "T".toList :=
    ⟨.variable ['T'], (by decide : IsIdentifier ['T']), by decide, by decide⟩
  have string : JavaType.Legal (.classType "java.lang.String".toList none []) :=
    ⟨.of_pieces (by decide), trivial, trivial⟩
  have parameters : IsParametersText "<T extends java.lang.String>".toList := by
    refine ⟨[⟨['T'], [.classType "java.lang.String".toList none []]⟩], fun p mem => ?_, by decide⟩
    obtain rfl := List.mem_singleton.1 mem
    refine ⟨by decide, fun t inBounds => ?_⟩
    obtain rfl := List.mem_singleton.1 inBounds
    exact ⟨string, by decide⟩
  refine ⟨⟨.of_pieces (by decide), by decide⟩, fun list listed => ?_, fun kind m mem => ?_,
    by simp [numbered, named], by simp [numbered, named], by simp [numbered, named]⟩
  · cases listed
    exact parameters
  · cases kind with
    | field =>
      obtain rfl := List.mem_singleton.1 (show m ∈ numbered.fields from mem)
      exact ⟨rfl, ⟨bound, by decide, by decide⟩, by simp [Member.field]⟩
    | superclass | superinterface | method | constructor | nested => cases mem

namespace Writer

/-- A class is read from a file, if the lines of what is read are those of one class. -/
theorem exists_of_shown {reader : Reader} {w : Writer} {lines : List String}
    (shown : reader.readAll.1.toOption.map (·.map fun d => (w.classLines d).toOption) = some [some lines]) :
    ∃ d r, reader.readAll = (.ok [d], r) ∧ w.classLines d = .ok lines := by
  obtain ⟨ds, found, listed⟩ := Option.map_eq_some_iff.1 shown
  obtain ⟨d, rfl, written⟩ := List.map_eq_singleton_iff.1 listed
  have read : reader.readAll.1 = .ok [d] := toOption_eq_some_iff.1 found
  exact ⟨d, reader.readAll.2, Prod.ext read rfl, toOption_eq_some_iff.1 written⟩

/-- In the oldest format a class has no lines if a default leaves a quote open, although the default is a
value of an annotation that its own line gives back; and a constant that is a literal of the type of its
field is read back as another one if the type is erased to that of strings. -/
theorem classLines_ofOld_ne :
    (openDefault.SourceClass ∧ openQuoteUse.Printable ∧ openQuote ∈ openQuoteUse.elements.map (·.value) ∧
      (openDefault.declared .method).map (·.detail.default?) = [some openQuote.text] ∧
      ∀ lines, (ofFormat .v21).classLines openDefault ≠ .ok lines) ∧
    numbered.SourceClass ∧ HasPlainLiterals (numbered.declared .field) ∧
      ∃ text d r w, (ofFormat .v21).writeAll [numbered] = .ok text ∧
        (Reader.ofFormat .v21 (ofText text)).readAll = (.ok [d], r) ∧
        (ofFormat .v43).leaveOut Format.v21.lacking = .ok w ∧
        w.classLines numbered = .ok ["CLSS a.Box", "FLD java.lang.String n = 5"] ∧
        (ofFormat .v43).classLines d = .ok ["CLSS a.Box", "FLD java.lang.String n = \"5\""] := by
  let text := "#Signature file v2.1\nversion \n\n" ++
    "CLSS a.Box\nSUPR null\nFLD java.lang.String n <constant> <value=\"5\">\n\n"
  obtain ⟨d, r, read, again⟩ := @exists_of_shown (Reader.ofFormat .v21 (ofText text.toList)) (ofFormat .v43)
    ["CLSS a.Box", "FLD java.lang.String n = \"5\""] (by decide +kernel)
  refine ⟨⟨sourceClass_openDefault, ⟨Annotated.ofLine_printUse soundUse_openQuoteUse, by decide⟩,
    List.mem_singleton_self _, rfl, fun lines written => ?_⟩, sourceClass_numbered,
    fun m mem type constant detail => ?_, text.toList, d, r, restricted .v21, ?_, read, leaveOut_lacking .v21, ?_,
    again⟩
  · have none : ((ofFormat .v21).classLines openDefault).toOption = none := by decide +kernel
    rw [written] at none
    cases none
  · obtain rfl := List.mem_singleton.1 (show m ∈ numbered.fields from mem)
    obtain ⟨rfl, same⟩ := Detail.field.inj detail
    obtain rfl := Option.some.inj same
    exact ⟨⟨fun string => absurd string (by decide), fun char => absurd char (by decide)⟩, fun _ _ => by decide⟩
  · decide +kernel
  · decide +kernel

end Writer
end ApiSurface
