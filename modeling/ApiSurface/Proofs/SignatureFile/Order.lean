import ApiSurface.Proofs.SignatureFile.ClassBlock
import ApiSurface.SignatureFile.Writer

/-!
The order of members and annotations in a file. What is written of a class in the spelling of today is the
class itself with members and annotations in the order of their lines. Main statements: arranging a class
twice is arranging it once (`arrange_arrange`), an arranged class is the same up to order
(`sameUpToOrder_arrange`) and stays printable (`Printable.arrange`), and classes that are the same up to
order have one block (`bodyLines_arrange`).
-/

namespace ApiSurface

open ApiSurface.Text ApiSurface.Line

/-! ### Orders of lines -/

namespace Writer

theorem lineLe_trans (a b c : String) (h : decide (a ≤ b)) (k : decide (b ≤ c)) : decide (a ≤ c) := by
  simp only [decide_eq_true_eq] at h k ⊢
  exact String.le_trans h k

theorem lineLe_total (a b : String) : decide (a ≤ b) || decide (b ≤ a) := by
  simpa using String.le_total a b

theorem linesLe_cons {a b : String} {as bs : List String} :
    linesLe (a :: as) (b :: bs) ↔ a < b ∨ a = b ∧ linesLe as bs := by
  simp [linesLe]

theorem linesLe_trans {a b c : List String} (h : linesLe a b) (k : linesLe b c) : linesLe a c := by
  induction a generalizing b c with
  | nil => simp [linesLe]
  | cons x a ih =>
    cases b with
    | nil => simp [linesLe] at h
    | cons y b =>
      cases c with
      | nil => simp [linesLe] at k
      | cons z c =>
        rw [linesLe_cons] at h k ⊢
        rcases h with less | ⟨rfl, le⟩
        · rcases k with less' | ⟨rfl, -⟩
          · exact .inl (String.lt_trans less less')
          · exact .inl less
        · rcases k with less' | ⟨rfl, le'⟩
          · exact .inl less'
          · exact .inr ⟨rfl, ih le le'⟩

theorem linesLe_total (a b : List String) : linesLe a b ∨ linesLe b a := by
  induction a generalizing b with
  | nil => simp [linesLe]
  | cons x a ih =>
    cases b with
    | nil => simp [linesLe]
    | cons y b =>
      simp only [linesLe_cons]
      by_cases same : x = y
      · subst same
        rcases ih b with le | le
        · exact .inl (.inr ⟨rfl, le⟩)
        · exact .inr (.inr ⟨rfl, le⟩)
      · by_cases less : x < y
        · exact .inl (.inl less)
        · refine .inr (.inl (String.not_le.1 fun le => same ?_))
          exact String.le_antisymm le (String.not_lt.1 less)

theorem linesLe_antisymm {a b : List String} (h : linesLe a b) (k : linesLe b a) : a = b := by
  induction a generalizing b with
  | nil =>
    cases b with
    | nil => rfl
    | cons y b => simp [linesLe] at k
  | cons x a ih =>
    cases b with
    | nil => simp [linesLe] at h
    | cons y b =>
      rw [linesLe_cons] at h k
      rcases h with less | ⟨rfl, le⟩
      · rcases k with more | ⟨rfl, -⟩
        · exact absurd (String.lt_trans less more) (String.lt_irrefl _)
        · exact absurd less (String.lt_irrefl _)
      · rcases k with more | ⟨-, le'⟩
        · exact absurd more (String.lt_irrefl _)
        · rw [ih le le']

theorem blockLe_trans (a b c : String × List String) (h : blockLe a b) (k : blockLe b c) : blockLe a c :=
  linesLe_trans h k

theorem blockLe_total (a b : String × List String) : blockLe a b || blockLe b a := by
  simpa [blockLe] using linesLe_total (a.1 :: a.2) (b.1 :: b.2)

theorem blockLe_antisymm {a b : String × List String} (h : blockLe a b) (k : blockLe b a) : a = b := by
  have same := linesLe_antisymm h k
  simp only [List.cons.injEq] at same
  exact Prod.ext same.1 same.2

/-- Blocks with the same lines are written alike, whatever their order was. -/
theorem mergeSort_blockLe_congr {a b : List (String × List String)} (same : a.Perm b) :
    a.mergeSort blockLe = b.mergeSort blockLe := by
  refine List.Perm.eq_of_pairwise (fun _ _ _ _ => blockLe_antisymm)
    (List.pairwise_mergeSort blockLe_trans blockLe_total a)
    (List.pairwise_mergeSort blockLe_trans blockLe_total b) ?_
  exact ((List.mergeSort_perm a _).trans same).trans (List.mergeSort_perm b _).symm

/-- Annotations are written alike, whatever their order was. -/
theorem annotationLines_congr {a b : List AnnotationUse} (same : a.Perm b) :
    annotationLines a = annotationLines b := by
  refine List.Perm.eq_of_pairwise
    (fun x y _ _ h k => String.le_antisymm (of_decide_eq_true h) (of_decide_eq_true k))
    (List.pairwise_mergeSort lineLe_trans lineLe_total _)
    (List.pairwise_mergeSort lineLe_trans lineLe_total _) ?_
  exact ((List.mergeSort_perm _ _).trans (same.map _)).trans (List.mergeSort_perm _ _).symm

end Writer

open Writer ClassDescription

/-! ### Arranged classes -/

theorem sortAnnotations_perm (uses : List AnnotationUse) : (sortAnnotations uses).Perm uses :=
  List.mergeSort_perm uses _

/-- The lines of annotations in order are those of the annotations in order. -/
theorem map_line_sortAnnotations (uses : List AnnotationUse) :
    (sortAnnotations uses).map (·.line) = annotationLines uses :=
  List.map_mergeSort fun _ _ _ _ => rfl

theorem annotationLe_trans (a b c : AnnotationUse) (h : decide (a.line ≤ b.line)) (k : decide (b.line ≤ c.line)) :
    decide (a.line ≤ c.line) :=
  lineLe_trans a.line b.line c.line h k

theorem annotationLe_total (a b : AnnotationUse) : decide (a.line ≤ b.line) || decide (b.line ≤ a.line) :=
  lineLe_total a.line b.line

theorem pairwise_sortAnnotations (uses : List AnnotationUse) :
    (sortAnnotations uses).Pairwise fun a b => decide (a.line ≤ b.line) :=
  List.pairwise_mergeSort annotationLe_trans annotationLe_total uses

@[simp] theorem sortAnnotations_sortAnnotations (uses : List AnnotationUse) :
    sortAnnotations (sortAnnotations uses) = sortAnnotations uses :=
  List.mergeSort_of_pairwise (pairwise_sortAnnotations uses)

/-- The member with its annotations in order. -/
def Member.arrange (m : Member) : Member := { m with annotations := sortAnnotations m.annotations }

@[simp] theorem Member.arrange_arrange (m : Member) : m.arrange.arrange = m.arrange := by
  simp [Member.arrange]

@[simp] theorem Member.face_arrange (m : Member) : m.arrange.face = m.face := by
  simp only [Member.face, Member.arrange, Prod.mk.injEq, true_and]
  exact Multiset.coe_eq_coe.2 (sortAnnotations_perm m.annotations)

/-- What a member is ordered by: its line, then those of its annotations in order. -/
def Member.block (className : String) (m : Member) : String × List String :=
  (String.ofList (formatMember .full .empty className m), annotationLines m.annotations)

/-- Nothing but its face counts for the place of a member. -/
theorem Member.block_of_face {a b : Member} (className : String) (same : a.face = b.face) :
    a.block className = b.block className := by
  simp only [Member.face, Prod.mk.injEq] at same
  obtain ⟨-, name, set, detail, uses⟩ := same
  have lines : formatMember .full .empty className a = formatMember .full .empty className b := by
    simp only [formatMember, detailTokens, Member.kind, name, set, detail]
  rw [Member.block, Member.block, lines, annotationLines_congr (Multiset.coe_eq_coe.1 uses)]

namespace ClassDescription

/-- Members in the order in which they are written. -/
def arrangeMembers (className : String) (ms : List Member) : List Member :=
  (ms.map Member.arrange).mergeSort fun a b => blockLe (a.block className) (b.block className)

/-- The class with members and annotations in the order in which they are written. -/
def arrange (c : ClassDescription) : ClassDescription :=
  { c.withMembers fun kind => arrangeMembers c.name (c.members kind) with
    annotations := sortAnnotations c.annotations }

theorem arrangeMembers_perm (className : String) (ms : List Member) :
    (arrangeMembers className ms).Perm (ms.map Member.arrange) :=
  List.mergeSort_perm _ _

theorem length_arrangeMembers (className : String) (ms : List Member) :
    (arrangeMembers className ms).length = ms.length := by
  simpa using (arrangeMembers_perm className ms).length_eq

theorem members_arrange (c : ClassDescription) (kind : MemberKind) :
    c.arrange.members kind = arrangeMembers c.name (c.members kind) := by
  have single : (arrangeMembers c.name (c.members .superclass)).length ≤ 1 := by
    rw [length_arrangeMembers]
    exact c.length_members_superclass
  exact congrFun (c.members_withMembers (f := fun kind => arrangeMembers c.name (c.members kind)) single) kind

theorem arrangeMembers_arrangeMembers (className : String) (ms : List Member) :
    arrangeMembers className (arrangeMembers className ms) = arrangeMembers className ms := by
  have sorted := @List.pairwise_mergeSort _ (fun a b : Member => blockLe (a.block className) (b.block className))
    (fun _ _ _ => blockLe_trans _ _ _) (fun _ _ => blockLe_total _ _) (ms.map Member.arrange)
  have kept : (arrangeMembers className ms).map Member.arrange = arrangeMembers className ms := by
    conv => rhs; rw [← List.map_id (arrangeMembers className ms)]
    refine List.map_congr_left fun m mem => ?_
    obtain ⟨n, -, rfl⟩ := List.mem_map.1 ((arrangeMembers_perm className ms).subset mem)
    exact n.arrange_arrange
  conv => lhs; rw [arrangeMembers, kept]
  exact List.mergeSort_of_pairwise sorted

/-- Arranging a class twice is arranging it once. -/
@[simp] theorem arrange_arrange (c : ClassDescription) : c.arrange.arrange = c.arrange := by
  have members : (fun kind => arrangeMembers c.name (c.arrange.members kind)) =
      fun kind => arrangeMembers c.name (c.members kind) := by
    funext kind
    rw [members_arrange, arrangeMembers_arrangeMembers]
  conv => lhs; rw [arrange]
  rw [show c.arrange.name = c.name from rfl, members]
  simp [arrange, withMembers]

/-- An arranged class is the same up to order. -/
theorem sameUpToOrder_arrange (c : ClassDescription) : c.arrange.SameUpToOrder c := by
  refine ⟨rfl, rfl, rfl, fun kind => ?_, sortAnnotations_perm c.annotations, rfl, rfl, rfl⟩
  rw [members_arrange]
  refine ((arrangeMembers_perm c.name _).map Member.face).trans ?_
  simp [Function.comp_def]

/-- Members of one class have their faces in the other. -/
theorem SameUpToOrder.exists_face {a b : ClassDescription} (same : a.SameUpToOrder b) {kind : MemberKind} {m : Member}
    (mem : m ∈ a.members kind) : ∃ n ∈ b.members kind, n.face = m.face := by
  obtain ⟨n, inKind, face⟩ := List.mem_map.1 ((same.members kind).subset (List.mem_map_of_mem mem))
  exact ⟨n, inKind, face⟩

/-- In another order a printable class stays printable. -/
theorem Printable.congr {a b : ClassDescription} (h : b.Printable) (same : a.SameUpToOrder b) : a.Printable := by
  refine ⟨?_, ?_, ?_, fun kind m mem => ?_, fun use mem => h.annotations use (same.annotations.subset mem), ?_, ?_, ?_⟩
  · rw [same.name, same.typeParameters]
    exact h.header
  · rw [same.name, same.typeParameters]
    exact h.headerLine
  · rw [same.modifiers]
    exact h.written
  · obtain ⟨n, inKind, face⟩ := same.exists_face mem
    have old := h.members kind n inKind
    simp only [Member.face, Prod.mk.injEq] at face
    obtain ⟨declaring, called, set, detail, uses⟩ := face
    refine ⟨?_, ?_, set ▸ old.written, ?_, ?_, fun use inUses =>
      old.annotations use ((Multiset.coe_eq_coe.1 uses).symm.subset inUses)⟩
    · rw [← old.kind, Member.kind, Member.kind, detail]
    · rw [← declaring, old.declaring, same.name]
    · rw [same.name, ← called, ← detail]
      exact old.sound
    · rw [same.name, ← called, ← detail]
      exact old.singleLine
  · rw [same.hiddenFields]
    exact h.hiddenFields
  · rw [same.hiddenClasses]
    exact h.hiddenClasses
  · rw [same.moduleInfo]
    exact h.noModule

theorem Printable.arrange {c : ClassDescription} (h : c.Printable) : c.arrange.Printable :=
  h.congr c.sameUpToOrder_arrange

theorem Carried.congr {active : Feature → Bool} {a b : ClassDescription} (h : b.Carried active)
    (same : a.SameUpToOrder b) : a.Carried active := by
  refine ⟨fun left m mem => ?_, fun left => ?_⟩
  · obtain ⟨n, inFields, face⟩ := same.exists_face (show m ∈ a.members .field from mem)
    simp only [Member.face, Prod.mk.injEq] at face
    rw [Member.constant?, ← face.2.2.2.1]
    exact h.constants left n inFields
  · rw [same.hiddenFields, same.hiddenClasses]
    exact h.hidden left

theorem Carried.arrange {active : Feature → Bool} {c : ClassDescription} (h : c.Carried active) :
    c.arrange.Carried active :=
  h.congr c.sameUpToOrder_arrange

/-! ### One block for all orders -/

/-- The lines of members with their annotations, in order. -/
def blockLines (className : String) (ms : List Member) : List (List Char) :=
  (((ms.map (Member.block className)).mergeSort blockLe).flatMap fun (line, uses) => line :: uses).map
    String.toList

theorem memberLines_arrange (className : String) (m : Member) :
    memberLines className m.arrange =
      ((m.block className).1 :: (m.block className).2).map String.toList := by
  have line : formatMember .full .empty className m.arrange = formatMember .full .empty className m := rfl
  have uses : m.arrange.annotations.map printUse = (annotationLines m.annotations).map String.toList := by
    rw [← map_line_sortAnnotations, List.map_map]
    exact List.map_congr_left fun use _ => (String.toList_ofList).symm
  simp [memberLines, line, uses, Member.block]

/-- The lines of arranged members are their lines in order. -/
theorem flatMap_memberLines_arrangeMembers (className : String) (ms : List Member) :
    (arrangeMembers className ms).flatMap (memberLines className) = blockLines className ms := by
  have ordered : (arrangeMembers className ms).map (Member.block className) =
      (ms.map (Member.block className)).mergeSort blockLe := by
    rw [arrangeMembers, List.map_mergeSort (s := blockLe) (fun _ _ _ _ => rfl), List.map_map]
    congr 1
    exact List.map_congr_left fun m _ => Member.block_of_face className m.face_arrange
  have each : ∀ m ∈ arrangeMembers className ms, memberLines className m =
      ((m.block className).1 :: (m.block className).2).map String.toList := by
    intro m mem
    obtain ⟨n, -, rfl⟩ := List.mem_map.1 ((arrangeMembers_perm className ms).subset mem)
    rw [← memberLines_arrange, n.arrange_arrange]
  rw [blockLines, ← ordered, List.map_flatMap, List.flatMap_map]
  exact List.flatMap_congr each

/-- Members with the same faces have the same lines, up to order. -/
theorem perm_block (className : String) {ms ns : List Member}
    (same : (ms.map Member.face).Perm (ns.map Member.face)) :
    (ms.map (Member.block className)).Perm (ns.map (Member.block className)) :=
  perm_map_of_perm_map same fun _ _ _ _ => Member.block_of_face className

/-- Classes that are the same up to order have one block. -/
theorem bodyLines_arrange {a b : ClassDescription} (same : a.SameUpToOrder b) :
    a.arrange.headerText = b.arrange.headerText ∧ a.arrange.bodyLines = b.arrange.bodyLines := by
  have uses : (sortAnnotations a.annotations).map printUse = (sortAnnotations b.annotations).map printUse := by
    have lines := annotationLines_congr same.annotations
    rw [← map_line_sortAnnotations, ← map_line_sortAnnotations] at lines
    have chars := congrArg (List.map String.toList) lines
    simpa [AnnotationOf.line, Function.comp_def] using chars
  have blocks (kind : MemberKind) : (a.arrange.members kind).flatMap (memberLines a.name) =
      (b.arrange.members kind).flatMap (memberLines b.name) := by
    rw [members_arrange, members_arrange, flatMap_memberLines_arrangeMembers,
      flatMap_memberLines_arrangeMembers, same.name, blockLines, blockLines,
      mergeSort_blockLe_congr (perm_block b.name (same.members kind))]
  refine ⟨?_, ?_⟩
  · simp only [headerText, arrange, withMembers, same.modifiers, same.name, same.typeParameters]
  · have names : a.arrange.name = a.name ∧ b.arrange.name = b.name := ⟨rfl, rfl⟩
    have hidden : a.arrange.hiddenFields = b.arrange.hiddenFields ∧
        a.arrange.hiddenClasses = b.arrange.hiddenClasses := ⟨same.hiddenFields, same.hiddenClasses⟩
    have own : a.arrange.annotations.map printUse = b.arrange.annotations.map printUse := uses
    simp only [bodyLines, names, blocks, hidden, own]

end ClassDescription
end ApiSurface
