import ApiSurface.Proofs.SignatureFile.Order

/-!
What a file keeps of a class. A class is projected to the features that are active: without generics its
types are erased, without constants its fields have none, and nothing that is inherited or invisible is
kept. Main statements: a line in the style of a writer is the full line of what is kept of the member
(`formatMember_project`), and the lines of a class in the spelling of today are those of its arranged
projection (`Writer.classLines_project`).
-/

namespace ApiSurface

open ApiSurface.Text ApiSurface.Line

variable (active : Feature → Bool)

/-! ### What is kept -/

/-- Text of types as it is kept: erased if generics are left out. -/
def keptType (scope : Erasure) (type : String) : String :=
  if active .tigerInfo then type else String.ofList (scope.erase type.toList)

/-- Type parameters as they are kept. -/
def keptParameters (parameters : Option String) : Option String :=
  if active .tigerInfo then parameters else none

/-- The details that are kept. -/
def Detail.project (scope : Erasure) : Detail → Detail
  | .field type constant => .field (keptType active scope type) (if active .constInfo then constant else none)
  | .method parameters result arguments exceptions default =>
    .method (keptParameters active parameters) (keptType active scope result)
      (keptType active scope arguments) (exceptions.map (keptType active scope)) default
  | .constructor parameters arguments exceptions =>
    .constructor (keptParameters active parameters) (keptType active scope arguments)
      (exceptions.map (keptType active scope))
  | .nested => .nested
  | .superclass => .superclass
  | .superinterface direct => .superinterface direct

/-- The name that is kept: that of a super type is a type. -/
def Detail.keptName (scope : Erasure) (name : String) : Detail → String
  | .superclass | .superinterface _ => keptType active scope name
  | .field .. | .method .. | .constructor .. | .nested => name

/-- What is kept of a member of a class whose type variables are in scope. -/
def Member.project (scope : Erasure) (m : Member) : Member :=
  let inner := scope.nest (m.detail.typeParameters?.map String.toList)
  { m with
    name := m.detail.keptName active inner m.name
    modifiers := m.modifiers.visible
    detail := m.detail.project active inner }

namespace ClassDescription

/-- The type variables of a class. -/
def scope (c : ClassDescription) : Erasure := Erasure.empty.nest (c.typeParameters.map String.toList)

/-- What is kept of a class: what it declares itself, as far as it is visible. -/
def project (c : ClassDescription) : ClassDescription :=
  { c.withMembers fun kind => (c.declared kind).map (Member.project active c.scope) with
    modifiers := c.modifiers.visible
    typeParameters := keptParameters active c.typeParameters
    hiddenFields := if active .listOfHiders then nonempty? c.hiddenFields else none
    hiddenClasses := if active .listOfHiders then nonempty? c.hiddenClasses else none }

/-- What is kept of a class or a module; a module is kept as it is or not at all. -/
def project? (c : ClassDescription) : Option ClassDescription :=
  match c.moduleInfo with
  | some m => if active .moduleInfo then some (.ofModule m) else none
  | none => some (c.project active)

theorem project?_of_class {c : ClassDescription} (own : c.moduleInfo = none) :
    c.project? active = some (c.project active) := by
  rw [project?, own]

theorem project?_of_module {c : ClassDescription} {m : ModuleDescription} (info : c.moduleInfo = some m)
    (on : active .moduleInfo) : c.project? active = some (.ofModule m) := by
  simp only [project?, info, on, if_true]

end ClassDescription

namespace ClassDescription

theorem length_declared (c : ClassDescription) (kind : MemberKind) :
    (c.declared kind).length ≤ (c.members kind).length :=
  List.length_filter_le _ _

/-- What is kept of a class has the members that it declares. -/
theorem members_project (c : ClassDescription) (kind : MemberKind) :
    (c.project active).members kind = (c.declared kind).map (Member.project active c.scope) := by
  have single : ((c.declared .superclass).map (Member.project active c.scope)).length ≤ 1 := by
    rw [List.length_map]
    exact (c.length_declared _).trans c.length_members_superclass
  exact congrFun (c.members_withMembers
    (f := fun kind => (c.declared kind).map (Member.project active c.scope)) single) kind

end ClassDescription

/-! ### Lines of what is kept -/

/-- The exceptions of a method or a constructor. -/
def Detail.exceptions : Detail → List String
  | .method _ _ _ exceptions _ => exceptions
  | .constructor _ _ exceptions => exceptions
  | .field .. | .nested | .superclass | .superinterface _ => []

/-- Exceptions that are erased one by one when their list is. -/
def Member.ErasesThrows (scope : Erasure) (m : Member) : Prop :=
  let inner := scope.nest (m.detail.typeParameters?.map String.toList)
  inner.erase (join [','] (m.detail.exceptions.map String.toList)) =
    join [','] (m.detail.exceptions.map fun e => inner.erase e.toList)

variable {active}

theorem kind_project (scope : Erasure) (detail : Detail) : (detail.project active scope).kind = detail.kind := by
  cases detail <;> rfl

theorem keywordTokens_visible (set : Modifiers) : keywordTokens set.visible = keywordTokens set := by
  have listed : set.visible.toList = set.toList.filter (·.keyword?.isSome) := by
    simp only [Modifiers.toList, List.filter_filter]
    refine List.filter_congr fun m _ => ?_
    rw [Modifiers.has_visible, Bool.and_comm]
  have words (ms : List Modifier) : (ms.filter (·.keyword?.isSome)).filterMap Modifier.keyword? =
      ms.filterMap Modifier.keyword? := by
    induction ms with
    | nil => rfl
    | cons m ms ih =>
      cases word : m.keyword? <;> simp [word, ih]
  rw [keywordTokens, Modifiers.keywords, listed, words, keywordTokens, Modifiers.keywords]

theorem toList_keptType (scope : Erasure) (type : String) (constants : Bool) :
    (keptType active scope type).toList = styled ⟨constants, active .tigerInfo⟩ scope type.toList := by
  unfold keptType styled
  split <;> simp

theorem parametersToken_kept (parameters : Option String) (constants : Bool) :
    parametersToken .full (keptParameters active parameters) =
      parametersToken ⟨constants, active .tigerInfo⟩ parameters := by
  unfold keptParameters parametersToken LineStyle.full
  cases active .tigerInfo <;> simp

/-- Exceptions on a line in a style are those that are kept. -/
theorem throwsTokens_kept {scope : Erasure} {exceptions : List String} (constants : Bool)
    (erases : active .tigerInfo = false → scope.erase (join [','] (exceptions.map String.toList)) =
      join [','] (exceptions.map fun e => scope.erase e.toList)) (other : Erasure) :
    throwsTokens .full other (exceptions.map (keptType active scope)) =
      throwsTokens ⟨constants, active .tigerInfo⟩ scope exceptions := by
  have chars : (exceptions.map (keptType active scope)).map String.toList =
      exceptions.map fun e => styled ⟨constants, active .tigerInfo⟩ scope e.toList := by
    rw [List.map_map]
    exact List.map_congr_left fun e _ => toList_keptType scope e constants
  unfold throwsTokens
  cases exceptions with
  | nil => rfl
  | cons e es =>
    rw [chars]
    cases on : active .tigerInfo with
    | true => simp [styled, LineStyle.full]
    | false =>
      have each := erases on
      simp only [List.map_cons] at each
      simp [styled, LineStyle.full, each]

/-- A line in the style of a writer is the full line of what is kept. -/
theorem formatMember_project {scope : Erasure} {m : Member}
    (erases : active .tigerInfo = false → m.ErasesThrows scope) (className : String) :
    formatMember ⟨active .constInfo, active .tigerInfo⟩ scope className m =
      formatMember .full .empty className (m.project active scope) := by
  obtain ⟨declaring, name, set, uses, detail⟩ := m
  have tokens (other : Erasure) :
      detailTokens .full other className (Member.project active scope ⟨declaring, name, set, uses, detail⟩) =
        detailTokens ⟨active .constInfo, active .tigerInfo⟩
          (scope.nest (detail.typeParameters?.map String.toList)) className
          ⟨declaring, name, set, uses, detail⟩ := by
    have full (scope : Erasure) (text : List Char) : styled .full scope text = text := rfl
    cases detail with
    | superclass | superinterface direct =>
      simp only [detailTokens, Member.project, Detail.project, Detail.keptName, full, toList_keptType _ _
        (active .constInfo)]
    | nested => rfl
    | field type constant =>
      simp only [detailTokens, Member.project, Detail.project, Detail.keptName, full, toList_keptType _ _
        (active .constInfo)]
      cases active .constInfo <;> simp [LineStyle.full]
    | method parameters result arguments exceptions default =>
      have thrown := throwsTokens_kept (active .constInfo) erases other
      simp only [detailTokens, Member.project, Detail.project, Detail.keptName, full, toList_keptType _ _
        (active .constInfo), parametersToken_kept _ (active .constInfo)]
      simp only [Detail.exceptions] at thrown
      rw [thrown]
    | constructor parameters arguments exceptions =>
      have thrown := throwsTokens_kept (active .constInfo) erases other
      simp only [detailTokens, Member.project, Detail.project, Detail.keptName, full, toList_keptType _ _
        (active .constInfo), parametersToken_kept _ (active .constInfo)]
      simp only [Detail.exceptions] at thrown
      rw [thrown]
  simp only [formatMember, tokens]
  simp only [Member.kind, Member.project, kind_project, keywordTokens_visible]

/-! ### Blocks of what is kept -/

/-- Members whose exceptions are erased one by one, if they are erased at all. -/
def ClassDescription.ErasesThrows (active : Feature → Bool) (c : ClassDescription) : Prop :=
  active .tigerInfo = false → ∀ kind, ∀ m ∈ c.declared kind, m.ErasesThrows c.scope

namespace Writer

variable {w : Writer} {c : ClassDescription}

theorem kindLines_project (rules : w.format.rules = []) (erases : c.ErasesThrows w.hasFeature)
    (kind : MemberKind) :
    w.kindLines c c.scope kind = .ok ((ClassDescription.blockLines c.name
      ((c.declared kind).map (Member.project w.hasFeature c.scope))).map String.ofList) := by
  have noNull : w.format.hasRule .nullSuper = false := by simp [Format.hasRule, rules]
  have each : ∀ m ∈ c.declared kind, w.memberBlock c c.scope m =
      .ok ((m.project w.hasFeature c.scope).block c.name) := by
    intro m mem
    have line := formatMember_project (fun left => erases left kind m mem) c.name
    rw [memberBlock, rules, LegacyRule.encodeAll, style, line]
    rfl
  have back (ls : List String) : (ls.map String.toList).map String.ofList = ls := by
    simp [Function.comp_def]
  simp only [kindLines, noNull, Bool.false_eq_true, and_false, if_false, mapM_ok each, map_ok,
    ClassDescription.blockLines, back, List.map_map]
  rfl

theorem headerText_project (w : Writer) (c : ClassDescription) :
    formatClassHeader w.style ⟨c.modifiers.visible, c.name, c.typeParameters⟩ =
      (c.project w.hasFeature).headerText := by
  have parameters := @parametersToken_kept w.hasFeature c.typeParameters (w.hasFeature .constInfo)
  simp only [parametersToken, LineStyle.full, if_true] at parameters
  have kept : (c.project w.hasFeature).typeParameters = keptParameters w.hasFeature c.typeParameters := rfl
  simp only [ClassDescription.headerText, formatClassHeader, style, LineStyle.full, if_true, kept, parameters]
  rfl

theorem hiddenLines_project (w : Writer) (tag : String) (names : Option (Ordered.Set String)) :
    w.hiddenLines tag names = (ClassDescription.hiddenLine tag
      (if w.hasFeature .listOfHiders then ClassDescription.nonempty? names else none)).map String.ofList := by
  unfold hiddenLines ClassDescription.hiddenLine
  cases ClassDescription.nonempty? names <;> cases w.hasFeature .listOfHiders <;> rfl

/-- The lines of a class in the spelling of today are those of what is kept of it, in order. -/
theorem classLines_project (rules : w.format.rules = []) (erases : c.ErasesThrows w.hasFeature) :
    w.classLines c = .ok (((c.project w.hasFeature).arrange.headerText ::
      (c.project w.hasFeature).arrange.bodyLines).map String.ofList) := by
  have members : MemberKind.writeOrder.mapM (w.kindLines c c.scope) = .ok (MemberKind.writeOrder.map
      fun kind => (((c.project w.hasFeature).arrange.members kind).flatMap
        (ClassDescription.memberLines c.name)).map String.ofList) := by
    refine mapM_ok fun kind _ => ?_
    rw [kindLines_project rules erases, ClassDescription.members_arrange, ClassDescription.members_project]
    exact congrArg _ (congrArg _ (ClassDescription.flatMap_memberLines_arrangeMembers _ _).symm)
  have uses : annotationLines c.annotations =
      ((ClassDescription.sortAnnotations c.annotations).map printUse).map String.ofList := by
    rw [← map_line_sortAnnotations, List.map_map]
    rfl
  have scope : Erasure.empty.nest (c.typeParameters.map String.toList) = c.scope := rfl
  simp only [classLines, scope, rules, LegacyRule.encodeAll, ok_bind, members, headerText_project,
    hiddenLines_project, uses, pure_eq_ok_except]
  rw [ClassDescription.bodyLines, ← List.flatMap_def, List.map_cons, List.map_append, List.map_append,
    List.map_append, List.map_flatMap]
  rfl

end Writer

end ApiSurface
