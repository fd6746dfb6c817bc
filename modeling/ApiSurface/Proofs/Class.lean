import Mathlib
import ApiSurface.Class

/-!
Classes as their members. A class is known from its members of every kind and from what stands beside
them; two classes that differ in the order of members and annotations only are the same to a reader of a
signature file. Main statements: a class has the members it was given (`members_withMembers`), and being
the same up to order is an equivalence.
-/

namespace ApiSurface

namespace ClassDescription

/-! ### Members by kind -/

/-- The class with these members instead of its own. -/
def withMembers (c : ClassDescription) (f : MemberKind → List Member) : ClassDescription :=
  { c with
    superclass := (f .superclass).getLast?
    interfaces := f .superinterface
    fields := f .field
    methods := f .method
    constructors := f .constructor
    nested := f .nested }

theorem toList_getLast? {α : Type} {l : List α} (single : l.length ≤ 1) : l.getLast?.toList = l := by
  match l, single with
  | [], _ => rfl
  | [a], _ => rfl

/-- A class has the members it was given. -/
theorem members_withMembers (c : ClassDescription) {f : MemberKind → List Member}
    (single : (f .superclass).length ≤ 1) : (c.withMembers f).members = f := by
  funext kind
  cases kind with
  | superclass => exact toList_getLast? single
  | superinterface | field | method | constructor | nested => rfl

theorem length_members_superclass (c : ClassDescription) : (c.members .superclass).length ≤ 1 := by
  cases h : c.superclass <;> simp [members, h]

@[simp] theorem withMembers_name (c : ClassDescription) (f : MemberKind → List Member) :
    (c.withMembers f).name = c.name := rfl

/-- Its own members change nothing. -/
@[simp] theorem withMembers_members (c : ClassDescription) : c.withMembers c.members = c := by
  obtain ⟨name, set, parameters, superclass, _, _, _, _, _, _, _, _, _⟩ := c
  cases superclass <;> rfl

@[simp] theorem withMembers_withMembers (c : ClassDescription) (f g : MemberKind → List Member) :
    (c.withMembers f).withMembers g = c.withMembers g := rfl

/-- Changed members are given members. -/
theorem updateMembers_withMembers (c : ClassDescription) {f : MemberKind → List Member}
    (single : (f .superclass).length ≤ 1) (kind : MemberKind) (change : List Member → List Member) :
    (c.withMembers f).updateMembers kind change =
      c.withMembers (Function.update f kind (change (f kind))) := by
  cases kind with
  | superclass =>
    have same : (f .superclass).getLast?.toList = f .superclass := toList_getLast? single
    simp [updateMembers, withMembers, same]
  | superinterface | field | method | constructor | nested => simp [updateMembers, withMembers]

@[simp] theorem annotations_updateMembers (c : ClassDescription) (kind : MemberKind)
    (change : List Member → List Member) : (c.updateMembers kind change).annotations = c.annotations := by
  cases kind <;> rfl

/-- A change of the members of a kind leaves those of the other kinds alone. -/
theorem members_updateMembers (c : ClassDescription) {kind : MemberKind} {change : List Member → List Member}
    (few : kind = .superclass → (change (c.members kind)).length ≤ 1) (other : MemberKind) :
    (c.updateMembers kind change).members other =
      if other = kind then change (c.members kind) else c.members other := by
  cases kind with
  | superclass =>
    cases other with
    | superclass => exact toList_getLast? (few rfl)
    | superinterface | field | method | constructor | nested => rfl
  | superinterface | field | method | constructor | nested => cases other <;> rfl

/-- A member that is added is one more of its kind. -/
theorem members_addMember {c : ClassDescription} {m : Member}
    (single : m.kind = .superclass → c.members .superclass = []) (kind : MemberKind) :
    (c.addMember m).members kind = c.members kind ++ [m].filter (·.kind = kind) := by
  have few : m.kind = .superclass → (c.members m.kind ++ [m]).length ≤ 1 := by
    intro super
    simp [super, single super]
  rw [addMember, c.members_updateMembers few]
  by_cases same : kind = m.kind
  · simp [same]
  · simp [same, Ne.symm same]

end ClassDescription

/-! ### The same up to order -/

/-- What a reader can tell of a member when the order of its annotations does not count. -/
def Member.face (m : Member) : String × String × Modifiers × Detail × Multiset AnnotationUse :=
  (m.declaringClass, m.name, m.modifiers, m.detail, m.annotations)

/-- Classes that differ in the order of members of a kind and of annotations only. -/
structure ClassDescription.SameUpToOrder (a b : ClassDescription) : Prop where
  name : a.name = b.name
  modifiers : a.modifiers = b.modifiers
  typeParameters : a.typeParameters = b.typeParameters
  members : ∀ kind, ((a.members kind).map Member.face).Perm ((b.members kind).map Member.face)
  annotations : a.annotations.Perm b.annotations
  hiddenFields : a.hiddenFields = b.hiddenFields
  hiddenClasses : a.hiddenClasses = b.hiddenClasses
  moduleInfo : a.moduleInfo = b.moduleInfo

namespace ClassDescription.SameUpToOrder

variable {a b c : ClassDescription}

theorem refl (a : ClassDescription) : a.SameUpToOrder a :=
  ⟨rfl, rfl, rfl, fun _ => .refl _, .refl _, rfl, rfl, rfl⟩

theorem symm (h : a.SameUpToOrder b) : b.SameUpToOrder a :=
  ⟨h.name.symm, h.modifiers.symm, h.typeParameters.symm, fun kind => (h.members kind).symm,
    h.annotations.symm, h.hiddenFields.symm, h.hiddenClasses.symm, h.moduleInfo.symm⟩

theorem trans (h : a.SameUpToOrder b) (k : b.SameUpToOrder c) : a.SameUpToOrder c :=
  ⟨h.name.trans k.name, h.modifiers.trans k.modifiers, h.typeParameters.trans k.typeParameters,
    fun kind => (h.members kind).trans (k.members kind), h.annotations.trans k.annotations,
    h.hiddenFields.trans k.hiddenFields, h.hiddenClasses.trans k.hiddenClasses,
    h.moduleInfo.trans k.moduleInfo⟩

end ClassDescription.SameUpToOrder

/-- A list that is a view of another one up to order is the view of the other one in some order. -/
theorem exists_of_perm_map {α β : Type} {f : α → β} {l : List β} {as : List α} (perm : l.Perm (as.map f)) :
    ∃ bs : List α, l = bs.map f ∧ bs.Perm as := by
  have found : Relation.Comp (fun l r => l = r.map f) List.Perm l as := by rwa [List.eq_map_comp_perm]
  exact found

/-- Lists that look the same up to order to one view look so to another one that tells less. -/
theorem perm_map_of_perm_map {α β γ : Type} {f : α → β} {g : α → γ} {as bs : List α}
    (same : (as.map f).Perm (bs.map f)) (less : ∀ a ∈ as, ∀ b ∈ bs, f a = f b → g a = g b) :
    (as.map g).Perm (bs.map g) := by
  obtain ⟨cs, views, perm⟩ := exists_of_perm_map same
  have inTurn : as.map g = cs.map g := by
    replace less : ∀ a ∈ as, ∀ b ∈ cs, f a = f b → g a = g b := fun a inA b inC =>
      less a inA b (perm.subset inC)
    clear same perm
    induction as generalizing cs with
    | nil => simpa using views
    | cons a as ih =>
      obtain ⟨c, cs, rfl, first, rest⟩ := List.map_eq_cons_iff.1 views.symm
      rw [List.map_cons, List.map_cons, less a (by simp) c (by simp) first.symm,
        ih cs rest.symm fun x inA y inC => less x (by simp [inA]) y (by simp [inC])]
  rw [inTurn]
  exact perm.map g

end ApiSurface
