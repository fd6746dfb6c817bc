import ApiSurface.Proofs.SignatureFile.Order
import ApiSurface.Proofs.Text.Delimited

/-!
The canonical form of a class and the order in which its members were found. Members are ordered by name
and by the text of their details, annotations by their lines; what is tied stays in the order in which it
was found. Main statements: the order of members separates details (`Detail.eq_of_orderKey`), and the
canonical form is the same for every order of discovery exactly when nothing different is tied
(`canonicalize_eq_iff_toldApart`).
-/

namespace ApiSurface

open ApiSurface.Text

/-! ### Order keys of details -/

namespace Detail

theorem delimited_optionKey : Delimited fun text => (optionKey text).toList := by
  intro a b r s same
  cases a <;> cases b <;>
    simp only [optionKey, String.toList_append, String.reduceToList, List.cons_append, List.nil_append,
      List.cons.injEq, true_and, Char.reduceEq, false_and] at same
  · exact ⟨rfl, same⟩
  · obtain ⟨rfl, rest⟩ := delimited_quoted _ _ _ _ same
    exact ⟨rfl, rest⟩

theorem toList_listKey (texts : List String) :
    (listKey texts).toList = '[' :: listed (fun s => (quoted s).toList) texts := by
  simp [listKey, listed, String.toList_intercalate, Function.comp_def]

theorem delimited_listKey : Delimited fun texts => (listKey texts).toList := by
  have inner : Delimited (listed fun s => (quoted s).toList) := by
    refine delimited_listed delimited_quoted fun a r s => ?_
    simp [quoted]
  intro as bs r s same
  simp only [toList_listKey, List.cons_append, List.cons.injEq, true_and] at same
  exact inner as bs r s same

/-- Details of one kind with one order key are the same. -/
theorem eq_of_orderKey {d e : Detail} (kind : d.kind = e.kind) (key : d.orderKey = e.orderKey) : d = e := by
  have chars := congrArg (fun k => k.toList ++ []) key
  cases d <;> cases e <;> simp only [Detail.kind, reduceCtorEq] at kind <;>
    simp only [orderKey, String.toList_append, String.toList_intercalate, String.reduceToList, List.map_cons,
      List.map_nil, List.intercalate_cons_cons, List.intercalate_singleton, List.append_assoc,
      List.cons_append, List.nil_append] at chars
  case field.field =>
    obtain ⟨rfl, chars⟩ := delimited_quoted _ _ _ _ chars
    obtain rfl := delimited_optionKey.injective (by simpa using chars)
    rfl
  case method.method =>
    obtain ⟨rfl, chars⟩ := delimited_optionKey _ _ _ _ chars
    obtain ⟨rfl, chars⟩ := delimited_quoted _ _ _ _ (by simpa using chars)
    obtain ⟨rfl, chars⟩ := delimited_quoted _ _ _ _ (by simpa using chars)
    obtain ⟨rfl, chars⟩ := delimited_listKey _ _ _ _ (by simpa using chars)
    obtain rfl := delimited_optionKey.injective (by simpa using chars)
    rfl
  case constructor.constructor =>
    obtain ⟨rfl, chars⟩ := delimited_optionKey _ _ _ _ chars
    obtain ⟨rfl, chars⟩ := delimited_quoted _ _ _ _ (by simpa using chars)
    obtain rfl := delimited_listKey.injective (by simpa using chars)
    rfl
  case superinterface.superinterface direct direct' =>
    cases direct <;> cases direct' <;> simp_all [orderKey]
  all_goals rfl

end Detail

/-! ### Stable order -/

/-- Those that are tied stay in the order in which they were. -/
theorem filter_mergeSort {α : Type} {le : α → α → Bool} (trans : ∀ a b c, le a b → le b c → le a c)
    (total : ∀ a b, le a b || le b a) {p : α → Bool} (tied : ∀ a b, p a → p b → le a b) (l : List α) :
    (l.mergeSort le).filter p = l.filter p := by
  have inOrder : (l.filter p).Pairwise (fun a b => le a b) :=
    List.pairwise_of_forall_mem_list fun a ha b hb =>
      tied a b (List.mem_filter.1 ha).2 (List.mem_filter.1 hb).2
  have kept : (l.filter p).Sublist (l.mergeSort le) :=
    List.sublist_mergeSort trans total inOrder List.filter_sublist
  have inTied : (l.filter p).Sublist ((l.mergeSort le).filter p) := by
    simpa using kept.filter p
  have size : (l.filter p).length = ((l.mergeSort le).filter p).length :=
    ((List.mergeSort_perm l le).filter p).length_eq.symm
  exact (inTied.eq_of_length size).symm

namespace ClassDescription

theorem memberLe_iff {a b : Member} :
    memberLe a b ↔ a.name < b.name ∨ a.name = b.name ∧ a.detail.orderKey ≤ b.detail.orderKey := by
  simp [memberLe]

theorem memberLe_trans (a b c : Member) (h : memberLe a b) (k : memberLe b c) : memberLe a c := by
  rw [memberLe_iff] at h k ⊢
  rcases h with less | ⟨same, le⟩ <;> rcases k with less' | ⟨same', le'⟩
  · exact .inl (String.lt_trans less less')
  · exact .inl (same' ▸ less)
  · exact .inl (same ▸ less')
  · exact .inr ⟨same.trans same', String.le_trans le le'⟩

theorem memberLe_total (a b : Member) : memberLe a b || memberLe b a := by
  rw [Bool.or_eq_true, memberLe_iff, memberLe_iff]
  rcases lt_trichotomy a.name b.name with less | same | more
  · exact .inl (.inl less)
  · rcases String.le_total a.detail.orderKey b.detail.orderKey with le | le
    · exact .inl (.inr ⟨same, le⟩)
    · exact .inr (.inr ⟨same.symm, le⟩)
  · exact .inr (.inl more)

/-- Members are tied that have one name and one order key. -/
theorem tied_of_memberLe {a b : Member} (h : memberLe a b) (k : memberLe b a) :
    a.name = b.name ∧ a.detail.orderKey = b.detail.orderKey := by
  rw [memberLe_iff] at h k
  rcases h with less | ⟨same, le⟩ <;> rcases k with less' | ⟨same', le'⟩
  · exact absurd (String.lt_trans less less') (String.lt_irrefl _)
  · exact absurd (same' ▸ less) (String.lt_irrefl _)
  · exact absurd (same ▸ less') (String.lt_irrefl _)
  · exact ⟨same, String.le_antisymm le le'⟩

/-- Tied members stay in the order in which they were. -/
theorem filter_sortMembers (ms : List Member) (name : String) (detail : Detail) :
    (sortMembers ms).filter (fun m => m.name = name ∧ m.detail = detail) =
      (ms.map Member.arrange).filter fun m => m.name = name ∧ m.detail = detail := by
  have tied (a b : Member) (inA : decide (a.name = name ∧ a.detail = detail))
      (inB : decide (b.name = name ∧ b.detail = detail)) : memberLe a b := by
    simp only [decide_eq_true_eq] at inA inB
    rw [memberLe_iff, inA.1, inA.2, inB.1, inB.2]
    exact .inr ⟨rfl, String.le_refl _⟩
  exact filter_mergeSort memberLe_trans memberLe_total tied (ms.map Member.arrange)

/-- Annotations with one line stay in the order in which they were. -/
theorem filter_sortAnnotations (uses : List AnnotationUse) (line : String) :
    (sortAnnotations uses).filter (·.line = line) = uses.filter (·.line = line) := by
  have tied (a b : AnnotationUse) (inA : decide (a.line = line)) (inB : decide (b.line = line)) :
      decide (a.line ≤ b.line) := by
    simp only [decide_eq_true_eq] at inA inB ⊢
    rw [inA, inB]
  exact filter_mergeSort annotationLe_trans annotationLe_total tied uses

/-! ### What the canonical form tells apart -/

/-- In canonical form the members of every kind are in order. -/
theorem canonicalize_eq (c : ClassDescription) :
    c.canonicalize = { c.withMembers fun kind => sortMembers (c.members kind) with
      annotations := sortAnnotations c.annotations
      hiddenFields := nonempty? c.hiddenFields
      hiddenClasses := nonempty? c.hiddenClasses } := rfl

theorem sortMembers_perm (ms : List Member) : (sortMembers ms).Perm (ms.map Member.arrange) :=
  List.mergeSort_perm _ _

theorem mem_sortMembers {ms : List Member} {m : Member} :
    m ∈ sortMembers ms ↔ ∃ n ∈ ms, n.arrange = m := by
  rw [(sortMembers_perm ms).mem_iff, List.mem_map]

theorem length_sortMembers (ms : List Member) : (sortMembers ms).length = ms.length := by
  simp [sortMembers]

theorem members_canonicalize (c : ClassDescription) (kind : MemberKind) :
    c.canonicalize.members kind = sortMembers (c.members kind) := by
  have single : (sortMembers (c.members .superclass)).length ≤ 1 := by
    rw [length_sortMembers]
    exact c.length_members_superclass
  exact congrFun (c.members_withMembers (f := fun kind => sortMembers (c.members kind)) single) kind

/-- Members in order stay in order. -/
theorem sortMembers_sortMembers (ms : List Member) : sortMembers (sortMembers ms) = sortMembers ms := by
  have sorted := List.pairwise_mergeSort memberLe_trans memberLe_total (ms.map Member.arrange)
  have kept : (sortMembers ms).map Member.arrange = sortMembers ms := by
    conv => rhs; rw [← List.map_id (sortMembers ms)]
    refine List.map_congr_left fun m mem => ?_
    obtain ⟨n, -, rfl⟩ := mem_sortMembers.1 mem
    exact n.arrange_arrange
  calc sortMembers (sortMembers ms)
    _ = ((sortMembers ms).map Member.arrange).mergeSort memberLe := rfl
    _ = (sortMembers ms).mergeSort memberLe := by rw [kept]
    _ = sortMembers ms := List.mergeSort_of_pairwise sorted

/-- The canonical form of a canonical form is itself. -/
theorem canonicalize_canonicalize (c : ClassDescription) : c.canonicalize.canonicalize = c.canonicalize := by
  have members : (fun kind => sortMembers (c.canonicalize.members kind)) =
      fun kind => sortMembers (c.members kind) :=
    funext fun kind => by rw [members_canonicalize, sortMembers_sortMembers]
  have uses : sortAnnotations c.canonicalize.annotations = sortAnnotations c.annotations :=
    sortAnnotations_sortAnnotations _
  have fields : nonempty? c.canonicalize.hiddenFields = nonempty? c.hiddenFields := by
    simp [canonicalize, nonempty?, Option.filter_filter]
  have classes : nonempty? c.canonicalize.hiddenClasses = nonempty? c.hiddenClasses := by
    simp [canonicalize, nonempty?, Option.filter_filter]
  rw [canonicalize_eq c.canonicalize, members, uses, fields, classes, canonicalize_eq c]
  rfl

/-- Different annotations have different lines. -/
def LinesApart (uses : List AnnotationUse) : Prop :=
  ∀ a ∈ uses, ∀ b ∈ uses, a.line = b.line → a = b

/-- Nothing different is tied: members of one kind with the same name and details are the same up to the
order of their annotations, and different annotations of one element have different lines. -/
structure ToldApart (c : ClassDescription) : Prop where
  members : ∀ kind, ∀ m ∈ c.members kind, ∀ n ∈ c.members kind,
    m.name = n.name → m.detail = n.detail → m.face = n.face
  annotations : LinesApart c.annotations
  memberAnnotations : ∀ kind, ∀ m ∈ c.members kind, LinesApart m.annotations

/-- Annotations that their lines tell apart have one order. -/
theorem sortAnnotations_congr {a b : List AnnotationUse} (same : a.Perm b) (apart : LinesApart b) :
    sortAnnotations a = sortAnnotations b := by
  have inB {x : AnnotationUse} {uses : List AnnotationUse} (perm : uses.Perm b) (mem : x ∈ sortAnnotations uses) :
      x ∈ b := perm.subset ((sortAnnotations_perm uses).subset mem)
  refine List.Perm.eq_of_pairwise (fun x y left right h k => ?_) (pairwise_sortAnnotations a)
    (pairwise_sortAnnotations b) ?_
  · exact apart x (inB same left) y (inB (.refl b) right)
      (String.le_antisymm (of_decide_eq_true h) (of_decide_eq_true k))
  · exact ((sortAnnotations_perm a).trans same).trans (sortAnnotations_perm b).symm

/-- Members with one face have one arranged form. -/
theorem arrange_congr {m n : Member} (same : m.face = n.face) (apart : LinesApart n.annotations) :
    m.arrange = n.arrange := by
  simp only [Member.face, Prod.mk.injEq] at same
  obtain ⟨declaring, name, set, detail, uses⟩ := same
  simp only [Member.arrange, Member.mk.injEq]
  exact ⟨declaring, name, set, sortAnnotations_congr (Multiset.coe_eq_coe.1 uses) apart, detail⟩

/-- Members with the same faces are arranged alike, up to order. -/
theorem perm_arrange {ms ns : List Member} (same : (ms.map Member.face).Perm (ns.map Member.face))
    (apart : ∀ n ∈ ns, LinesApart n.annotations) : (ms.map Member.arrange).Perm (ns.map Member.arrange) :=
  perm_map_of_perm_map same fun _ _ n mem face => arrange_congr face (apart n mem)

/-- Members that are told apart have one order. -/
theorem sortMembers_congr {ms ns : List Member} {kind : MemberKind}
    (same : (ms.map Member.face).Perm (ns.map Member.face)) (filed : ∀ n ∈ ns, n.kind = kind)
    (members : ∀ m ∈ ns, ∀ n ∈ ns, m.name = n.name → m.detail = n.detail → m.face = n.face)
    (apart : ∀ n ∈ ns, LinesApart n.annotations) : sortMembers ms = sortMembers ns := by
  have perm : (sortMembers ms).Perm (ns.map Member.arrange) :=
    (sortMembers_perm ms).trans (perm_arrange same apart)
  have perm' : (sortMembers ns).Perm (ns.map Member.arrange) := sortMembers_perm ns
  refine List.Perm.eq_of_pairwise (fun x y left right h k => ?_)
    (List.pairwise_mergeSort memberLe_trans memberLe_total _)
    (List.pairwise_mergeSort memberLe_trans memberLe_total _) (perm.trans perm'.symm)
  obtain ⟨m, inM, rfl⟩ := List.mem_map.1 (perm.subset left)
  obtain ⟨n, inN, rfl⟩ := List.mem_map.1 (perm'.subset right)
  obtain ⟨name, key⟩ := tied_of_memberLe h k
  have detail : m.detail = n.detail := Detail.eq_of_orderKey ((filed m inM).trans (filed n inN).symm) key
  exact arrange_congr (members m inM n inN name detail) (apart n inN)

/-- Nothing different is tied: the canonical form does not depend on the order of discovery. -/
theorem canonicalize_congr {c d : ClassDescription} (same : d.SameUpToOrder c)
    (filed : ∀ kind, ∀ m ∈ c.members kind, m.kind = kind) (apart : c.ToldApart) :
    d.canonicalize = c.canonicalize := by
  have members : (fun kind => sortMembers (d.members kind)) = fun kind => sortMembers (c.members kind) :=
    funext fun kind => sortMembers_congr (same.members kind) (filed kind) (apart.members kind)
      (apart.memberAnnotations kind)
  rw [canonicalize_eq, canonicalize_eq, members, sortAnnotations_congr same.annotations apart.annotations,
    same.hiddenFields, same.hiddenClasses]
  simp only [withMembers, same.name, same.modifiers, same.typeParameters, same.moduleInfo]

/-! ### What is tied shows the order of discovery -/

/-- The class with other members of a kind. -/
def refile (c : ClassDescription) (kind : MemberKind) (ms : List Member) : ClassDescription :=
  c.withMembers (Function.update c.members kind ms)

theorem members_refile {c : ClassDescription} {kind : MemberKind} {ms : List Member}
    (size : ms.length = (c.members kind).length) :
    (c.refile kind ms).members = Function.update c.members kind ms := by
  refine members_withMembers c ?_
  by_cases same : kind = .superclass
  · subst same
    rw [Function.update_self, size]
    exact c.length_members_superclass
  · rw [Function.update_of_ne (Ne.symm same)]
    exact c.length_members_superclass

/-- Other members with the same faces leave the class the same up to order. -/
theorem sameUpToOrder_refile {c : ClassDescription} {kind : MemberKind} {ms : List Member}
    (same : (ms.map Member.face).Perm ((c.members kind).map Member.face)) :
    (c.refile kind ms).SameUpToOrder c := by
  have size : ms.length = (c.members kind).length := by simpa using same.length_eq
  refine ⟨rfl, rfl, rfl, fun kind' => ?_, .refl _, rfl, rfl, rfl⟩
  rw [members_refile size]
  by_cases here : kind' = kind
  · subst here
    rwa [Function.update_self]
  · rw [Function.update_of_ne here]

/-- If the canonical form is the same for every order, members with the same faces are sorted alike. -/
theorem sortMembers_eq_of_canonicalize {c : ClassDescription}
    (one : ∀ d : ClassDescription, d.SameUpToOrder c → d.canonicalize = c.canonicalize) {kind : MemberKind}
    {ms : List Member} (same : (ms.map Member.face).Perm ((c.members kind).map Member.face)) :
    sortMembers ms = sortMembers (c.members kind) := by
  have size : ms.length = (c.members kind).length := by simpa using same.length_eq
  have sorted := congrArg (fun d => d.members kind) (one _ (sameUpToOrder_refile same))
  simpa only [members_canonicalize, members_refile size, Function.update_self] using sorted

/-- Sorted members show which one of those with its name and details was found first. -/
theorem arrange_eq_of_sortMembers {m n : Member} {ms ns : List Member}
    (name : m.name = n.name) (detail : m.detail = n.detail)
    (same : sortMembers (m :: ms) = sortMembers (n :: ns)) : m.arrange = n.arrange := by
  have tied := congrArg (List.filter fun k => k.name = m.name ∧ k.detail = m.detail) same
  rw [filter_sortMembers, filter_sortMembers] at tied
  rw [List.map_cons, List.map_cons, List.filter_cons_of_pos (by simp [Member.arrange]),
    List.filter_cons_of_pos (by simp [Member.arrange, name, detail]), List.cons.injEq] at tied
  exact tied.1

/-- Sorted annotations show which one of those with its line was found first. -/
theorem eq_of_sortAnnotations {a b : AnnotationUse} {as bs : List AnnotationUse} (line : a.line = b.line)
    (same : sortAnnotations (a :: as) = sortAnnotations (b :: bs)) : a = b := by
  have tied := congrArg (List.filter (·.line = a.line)) same
  rw [filter_sortAnnotations, filter_sortAnnotations] at tied
  simp only [line, decide_true, List.filter_cons_of_pos, List.cons.injEq] at tied
  exact tied.1

/-- Every item of a list can be its first. -/
theorem exists_perm_cons {α : Type} {l : List α} {a : α} (mem : a ∈ l) : ∃ rest, (a :: rest).Perm l := by
  obtain ⟨before, behind, rfl⟩ := List.append_of_mem mem
  exact ⟨before ++ behind, List.perm_middle.symm⟩

/-- Two different items of a list can be its first two, in either order. -/
theorem exists_perm_cons_cons {α : Type} {l : List α} {a b : α} (inA : a ∈ l) (inB : b ∈ l) (apart : a ≠ b) :
    ∃ rest, (a :: b :: rest).Perm l ∧ (b :: a :: rest).Perm l := by
  obtain ⟨more, perm⟩ := exists_perm_cons inA
  obtain ⟨rest, perm'⟩ := exists_perm_cons
    ((List.mem_cons.1 (perm.symm.subset inB)).resolve_left (Ne.symm apart))
  have first : (a :: b :: rest).Perm l := (perm'.cons a).trans perm
  exact ⟨rest, first, (List.Perm.swap a b rest).trans first⟩

/-- A list of annotations that is sorted alike in every order has a line for each. -/
theorem linesApart_of_sortAnnotations {uses : List AnnotationUse}
    (one : ∀ other, other.Perm uses → sortAnnotations other = sortAnnotations uses) : LinesApart uses := by
  intro a inA b inB line
  by_contra apart
  obtain ⟨rest, perm, perm'⟩ := exists_perm_cons_cons inA inB apart
  exact apart (eq_of_sortAnnotations line ((one _ perm).trans (one _ perm').symm))

/-- If the canonical form is the same for every order, nothing different is tied. -/
theorem toldApart_of_canonicalize {c : ClassDescription}
    (one : ∀ d : ClassDescription, d.SameUpToOrder c → d.canonicalize = c.canonicalize) : c.ToldApart := by
  refine ⟨fun kind m inM n inN name detail => ?_, ?_, fun kind m inM => ?_⟩
  · by_contra apart
    obtain ⟨rest, perm, perm'⟩ := exists_perm_cons_cons inM inN fun same => apart (same ▸ rfl)
    have sorted := (sortMembers_eq_of_canonicalize one (perm.map _)).trans
      (sortMembers_eq_of_canonicalize one (perm'.map _)).symm
    have arranged := congrArg Member.face (arrange_eq_of_sortMembers name detail sorted)
    rw [Member.face_arrange, Member.face_arrange] at arranged
    exact apart arranged
  · refine linesApart_of_sortAnnotations fun other perm => ?_
    have same : ({ c with annotations := other } : ClassDescription).SameUpToOrder c :=
      ⟨rfl, rfl, rfl, fun _ => .refl _, perm, rfl, rfl, rfl⟩
    exact congrArg ClassDescription.annotations (one _ same)
  · refine linesApart_of_sortAnnotations fun other perm => ?_
    obtain ⟨rest, first⟩ := exists_perm_cons inM
    -- the member comes first, once with its own annotations and once with the others
    have face : ({ m with annotations := other } : Member).face = m.face := by
      simp only [Member.face, Prod.mk.injEq, true_and]
      exact Multiset.coe_eq_coe.2 perm
    have faces : (({ m with annotations := other } :: rest).map Member.face).Perm
        ((c.members kind).map Member.face) := by
      rw [List.map_cons, face, ← List.map_cons]
      exact first.map Member.face
    have sorted : sortMembers ({ m with annotations := other } :: rest) = sortMembers (m :: rest) :=
      (sortMembers_eq_of_canonicalize one faces).trans
        (sortMembers_eq_of_canonicalize one (first.map Member.face)).symm
    exact congrArg Member.annotations
      (arrange_eq_of_sortMembers (m := { m with annotations := other }) (n := m) rfl rfl sorted)

/-- **The canonical form is the same for every order of discovery** exactly when nothing different is
tied. -/
theorem canonicalize_eq_iff_toldApart {c : ClassDescription}
    (filed : ∀ kind, ∀ m ∈ c.members kind, m.kind = kind) :
    (∀ d : ClassDescription, d.SameUpToOrder c → d.canonicalize = c.canonicalize) ↔ c.ToldApart :=
  ⟨toldApart_of_canonicalize, fun apart _ same => canonicalize_congr same filed apart⟩

/-- A class with these methods. -/
def withMethods (methods : List Member) : ClassDescription :=
  { named "a.Task" (.ofList [.public]) with methods := methods }

/-- A method named `run`, declared in this class and with these arguments. -/
def runMethod (declaringClass arguments : String) : Member :=
  .method declaringClass "run" (.ofList [.public]) "void" arguments

/-- Methods with one name and different arguments are not tied. -/
theorem canonicalize_overloads :
    (∀ kind, ∀ m ∈ (withMethods [runMethod "a.Task" "long", runMethod "a.Base" "int"]).members kind,
      m.kind = kind) ∧
    ((∀ d : ClassDescription,
        d.SameUpToOrder (withMethods [runMethod "a.Task" "long", runMethod "a.Base" "int"]) →
        d.canonicalize = (withMethods [runMethod "a.Task" "long", runMethod "a.Base" "int"]).canonicalize) ↔
      (withMethods [runMethod "a.Task" "long", runMethod "a.Base" "int"]).ToldApart) ∧
    (withMethods [runMethod "a.Task" "long", runMethod "a.Base" "int"]).ToldApart := by
  have filed : ∀ kind, ∀ m ∈ (withMethods [runMethod "a.Task" "long", runMethod "a.Base" "int"]).members kind,
      m.kind = kind := by
    intro kind
    cases kind <;> simp [withMethods, named, members, runMethod, Member.method, Member.kind, Detail.kind]
  refine ⟨filed, canonicalize_eq_iff_toldApart filed, ?_, ?_, ?_⟩
  · intro kind
    cases kind <;> simp [withMethods, named, members, runMethod, Member.method]
  · simp [LinesApart, withMethods, named]
  · intro kind
    cases kind <;> simp [withMethods, named, members, runMethod, Member.method, LinesApart]

/-- A method and an inherited one with the same name and details stay in the order in which they were
found. -/
theorem canonicalize_ne_of_inherited :
    (withMethods [runMethod "a.Base" "", runMethod "a.Task" ""]).SameUpToOrder
      (withMethods [runMethod "a.Task" "", runMethod "a.Base" ""]) ∧
    (withMethods [runMethod "a.Base" "", runMethod "a.Task" ""]).canonicalize ≠
      (withMethods [runMethod "a.Task" "", runMethod "a.Base" ""]).canonicalize := by
  constructor
  · refine ⟨rfl, rfl, rfl, fun kind => ?_, .refl _, rfl, rfl, rfl⟩
    cases kind with
    | method => exact List.Perm.swap _ _ _
    | superclass | superinterface | field | constructor | nested => exact .refl _
  · intro same
    have sorted := congrArg (fun c => c.members .method) same
    simp only [members_canonicalize] at sorted
    have first := arrange_eq_of_sortMembers (m := runMethod "a.Base" "") (n := runMethod "a.Task" "")
      rfl rfl sorted
    exact absurd (congrArg Member.declaringClass first) (by decide)

end ClassDescription

end ApiSurface
