import ApiSurface.Proofs.Legacy.Source
import ApiSurface.Proofs.SignatureFile.AnyOrder
import ApiSurface.Proofs.SignatureFile.RoundTrip

/-!
From a format to older ones. All formats but the oldest one keep types and constants of a class as they are,
so that what is read from them is written in an older format like the class itself. Main statements: with
generics and constants nothing that is written of a class is lost (`Writer.classLines_project_eq`), and a
class that is written in two formats in turn has the lines of the older one (`Writer.classLines_inSteps`).
-/

namespace ApiSurface

open ApiSurface.Text ApiSurface.Line ApiSurface.SignatureFile ClassDescription

namespace Format

/-- All formats but the oldest one have generics and constants, and at most the old spelling of constants. -/
theorem keeps_of_ne {f : Format} (known : f ∈ newestFirst) (newer : f ≠ v21) :
    f.supports .tigerInfo ∧ f.supports .constInfo ∧ (f.rules = [] ∨ f.rules = [.encodedConstants]) := by
  simp only [newestFirst, List.mem_cons, List.not_mem_nil, or_false] at known
  rcases known with rfl | rfl | rfl | rfl | rfl | rfl
  · decide
  · decide
  · decide
  · decide
  · decide
  · exact absurd rfl newer

/-- A format that is newer than another one is not the oldest one, and lists hidden names if the other one
does. -/
theorem of_newer {g h : Format} (older : List.Sublist [g, h] newestFirst) :
    g ∈ newestFirst ∧ h ∈ newestFirst ∧ g ≠ v21 ∧ (h.supports .listOfHiders → g.supports .listOfHiders) := by
  have inList : g ∈ newestFirst ∧ h ∈ newestFirst := ⟨older.subset (by simp), older.subset (by simp)⟩
  refine ⟨inList.1, inList.2, ?_⟩
  simp only [newestFirst, List.mem_cons, List.not_mem_nil, or_false] at inList
  obtain ⟨rfl | rfl | rfl | rfl | rfl | rfl, rfl | rfl | rfl | rfl | rfl | rfl⟩ := inList <;>
    revert older <;> decide

end Format

/-! ### What is written of what is kept -/

section Kept

variable {active : Feature → Bool} {c : ClassDescription}

theorem keptType_eq_self (tiger : active .tigerInfo = true) (scope : Erasure) (type : String) :
    keptType active scope type = type := if_pos tiger

/-- With generics and constants a member is kept but for modifiers that are never written. -/
theorem Member.project_eq_visible (tiger : active .tigerInfo = true) (constants : active .constInfo = true)
    (scope : Erasure) (m : Member) : m.project active scope = { m with modifiers := m.modifiers.visible } := by
  have types (scope : Erasure) : keptType active scope = id := funext (keptType_eq_self tiger scope)
  obtain ⟨declaring, name, set, uses, detail⟩ := m
  cases detail <;>
    simp [Member.project, Detail.project, Detail.keptName, types, keptParameters, tiger, constants]

/-- All members that are kept are declared. -/
theorem declared_project (c : ClassDescription) (kind : MemberKind) :
    (c.project active).declared kind = (c.declared kind).map (Member.project active c.scope) := by
  rw [declared, members_project, List.filter_eq_self]
  intro m mem
  obtain ⟨n, inKind, rfl⟩ := List.mem_map.1 mem
  have own := (List.mem_filter.1 inKind).2
  have direct : (n.project active c.scope).isDirect = n.isDirect := by
    obtain ⟨declaring, name, set, uses, detail⟩ := n
    cases detail <;> rfl
  rw [direct]
  exact own

/-- A member that is kept with generics and constants is written like the member. -/
theorem Writer.memberBlock_project {w : Writer} (tiger : active .tigerInfo = true)
    (constants : active .constInfo = true) (scope inner : Erasure) (m : Member) :
    w.memberBlock (c.project active) scope (m.project active inner) = w.memberBlock c scope m := by
  rw [Member.project_eq_visible tiger constants]
  have line : formatMember w.style scope c.name { m with modifiers := m.modifiers.visible } =
      formatMember w.style scope c.name m := by
    simp only [formatMember, keywordTokens_visible]
    rfl
  exact congrArg (fun line => (LegacyRule.encodeAll c.name w.format.rules line).map
    fun line => (String.ofList line, annotationLines m.annotations)) line

/-- What is kept with generics and constants is written like the class, if its superclass is its own. -/
theorem Writer.classLines_project_eq {w : Writer} (tiger : active .tigerInfo = true)
    (constants : active .constInfo = true) (hiders : w.hasFeature .listOfHiders → active .listOfHiders)
    (own : c.declared .superclass = c.members .superclass) :
    w.classLines (c.project active) = w.classLines c := by
  have parameters : (c.project active).typeParameters = c.typeParameters := if_pos tiger
  have superclass : (c.project active).superclass.isNone = c.superclass.isNone := by
    have listed := members_project active c .superclass
    rw [own] at listed
    have size := congrArg List.length listed
    rw [List.length_map] at size
    cases left : (c.project active).superclass <;> cases right : c.superclass <;>
      simp [members, left, right] at size ⊢
  have kinds : w.kindLines (c.project active) = w.kindLines c := by
    funext scope kind
    rw [kindLines, kindLines, superclass, declared_project, List.mapM_map]
    simp only [Function.comp_def, memberBlock_project tiger constants]
  have hidden (tag : String) (names : Option (Ordered.Set String)) :
      w.hiddenLines tag (if active .listOfHiders then nonempty? names else none) = w.hiddenLines tag names := by
    rw [hiddenLines_project, hiddenLines_project]
    cases on : w.hasFeature .listOfHiders with
    | false => rfl
    | true =>
      have twice : nonempty? (nonempty? names) = nonempty? names := by simp [nonempty?]
      rw [if_pos (hiders on), if_pos rfl, if_pos rfl, twice]
  have header : formatClassHeader w.style ⟨(c.project active).modifiers.visible, c.name, c.typeParameters⟩ =
      formatClassHeader w.style ⟨c.modifiers.visible, c.name, c.typeParameters⟩ := by
    rw [show (c.project active).modifiers.visible = c.modifiers.visible from visible_visible c.modifiers]
  have fields : (c.project active).hiddenFields = if active .listOfHiders then nonempty? c.hiddenFields else none :=
    rfl
  have classes : (c.project active).hiddenClasses =
      if active .listOfHiders then nonempty? c.hiddenClasses else none := rfl
  rw [classLines, classLines, parameters, fields, classes, hidden, hidden,
    show (c.project active).name = c.name from rfl, header, kinds]
  rfl

/-- What is kept of literals with generics and constants are literals. -/
theorem HasLiterals.project (tiger : active .tigerInfo = true) (constants : active .constInfo = true)
    (h : HasLiterals (c.declared .field)) : HasLiterals ((c.project active).members .field) := by
  intro m mem type constant detail
  rw [members_project] at mem
  obtain ⟨n, declared, rfl⟩ := List.mem_map.1 mem
  rw [Member.project_eq_visible tiger constants] at detail
  exact h n declared type constant detail

/-- What is kept of a class of source with literal constants is read back from formats that keep types. -/
theorem ClassDescription.SourceClass.spelled_of_newer (h : c.SourceClass) (noModule : c.moduleInfo = none)
    (literals : HasLiterals (c.declared .field)) (tiger : active .tigerInfo = true)
    (constants : active .constInfo = true) {rules : List LegacyRule}
    (newer : rules = [] ∨ rules = [.encodedConstants]) : (c.project active).Spelled rules := by
  rcases newer with rfl | rfl
  · intro kind m mem
    have printable := (h.printable noModule).members kind m mem
    exact .of_encoded rfl rfl rfl (singleLine_formatMember printable.sound printable.singleLine _)
  · exact h.spelled_constants noModule (literals.project tiger constants)

end Kept

/-! ### Steps -/

/-- Nothing but the order of members and annotations is lost in the class itself. -/
theorem ClassDescription.SameUpToOrder.withoutEmpty {c d : ClassDescription} (same : c.SameUpToOrder d) :
    c.withoutEmpty.SameUpToOrder d.withoutEmpty :=
  ⟨same.name, same.modifiers, same.typeParameters, same.members, same.annotations,
    congrArg nonempty? same.hiddenFields, congrArg nonempty? same.hiddenClasses, same.moduleInfo⟩

/-- **Formats can be stepped down.** A class of source whose constants are literals of their fields and whose
superclass is its own is written in a format; the class that is read from the file has the lines of the class
itself in every older format, or both have none. They have lines in all formats but the oldest one. -/
theorem Writer.classLines_inSteps {g h : Format} (older : List.Sublist [g, h] Format.newestFirst)
    {c : ClassDescription} (source : c.SourceClass) (noModule : c.moduleInfo = none)
    (literals : HasLiterals (c.declared .field)) (own : c.declared .superclass = c.members .superclass) :
    ∃ text d r, (Writer.ofFormat g).writeAll [c] = .ok text ∧
      (Reader.ofFormat g (ofText text)).readAll = (.ok [d], r) ∧
      (∀ lines, (Writer.ofFormat h).classLines d = .ok lines ↔ (Writer.ofFormat h).classLines c = .ok lines) ∧
      (h ≠ .v21 → ∃ lines, (Writer.ofFormat h).classLines c = .ok lines) := by
  obtain ⟨known, knownOld, newer, hiders⟩ := Format.of_newer older
  obtain ⟨tiger, constants, rules⟩ := Format.keeps_of_ne known newer
  obtain ⟨text, d, r, written, read, same⟩ := readAll_spelled known noModule source.erasesThrows
    (source.printable noModule) (source.spelled_of_newer noModule literals tiger constants rules)
  have kept : (Writer.ofFormat h).classLines (c.project g.supports) = (Writer.ofFormat h).classLines c :=
    classLines_project_eq tiger constants hiders own
  refine ⟨text, d, r, written, read, fun lines => ?_, fun newer => ?_⟩
  · rw [← kept]
    exact ⟨classLines_congr same.withoutEmpty, classLines_congr same.symm.withoutEmpty⟩
  · obtain ⟨tiger, constants, rules⟩ := Format.keeps_of_ne knownOld newer
    obtain ⟨e, lines, -, found, -⟩ := Writer.classLines_spelled (w := ofFormat h) source.erasesThrows
      (source.printable noModule) (source.spelled_of_newer noModule literals tiger constants rules)
    exact ⟨_, found⟩

/-- A generic class with a constant, from the last format with old spellings to the oldest one. -/
theorem Writer.classLines_inSteps_box : ∃ text d r, (Writer.ofFormat .v31).writeAll [box] = .ok text ∧
    (Reader.ofFormat .v31 (ofText text)).readAll = (.ok [d], r) ∧
    (∀ lines, (Writer.ofFormat .v21).classLines d = .ok lines ↔ (Writer.ofFormat .v21).classLines box = .ok lines) ∧
    (Format.v21 ≠ .v21 → ∃ lines, (Writer.ofFormat .v21).classLines box = .ok lines) := by
  have source : box.SourceClass := wellFormed_box
  have literals : HasLiterals (box.declared .field) := by
    intro m mem type constant detail
    obtain rfl := List.mem_singleton.1
      (show m ∈ [Member.field "a.Box" "count" (.ofList [.protected]) "int" (some "1")] from mem)
    obtain ⟨rfl, -⟩ := Detail.field.inj detail
    exact ⟨fun same => absurd same (by decide), fun same => absurd same (by decide)⟩
  exact classLines_inSteps (by decide) source rfl literals rfl

/-- A class with a superclass that it does not declare itself. -/
def ClassDescription.borrower : ClassDescription :=
  { named "a.Task" .none with superclass := some (.superclass "a.Base" "a.Root") }

/-- A superclass that is not the class's own is nowhere written, and in the oldest format only the class that
is read from a newer one has a line that says that there is none. -/
theorem Writer.classLines_inSteps_borrower : borrower.SourceClass ∧ HasLiterals (borrower.declared .field) ∧
    ∃ text d r, (Writer.ofFormat .v43).writeAll [borrower] = .ok text ∧
      (Reader.ofFormat .v43 (ofText text)).readAll = (.ok [d], r) ∧
      (Writer.ofFormat .v21).classLines d = .ok ["CLSS a.Task", "SUPR null"] ∧
      (Writer.ofFormat .v21).classLines borrower = .ok ["CLSS a.Task"] := by
  have nothing (kind : MemberKind) : borrower.declared kind = [] := by cases kind <;> decide
  refine ⟨⟨⟨.of_pieces (by decide), by decide⟩, by simp [borrower, named], fun kind m mem => ?_,
    by simp [borrower, named], by simp [borrower, named], by simp [borrower, named]⟩, ?_,
    "#Signature file v4.3\nversion \n\nCLSS a.Task\n\n".toList, named "a.Task" .none, _, ?_, rfl, ?_, ?_⟩
  · rw [nothing] at mem
    cases mem
  · rw [nothing]
    intro m mem
    cases mem
  · decide +kernel
  · decide +kernel
  · decide +kernel

end ApiSurface
