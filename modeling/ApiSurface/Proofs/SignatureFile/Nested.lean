import ApiSurface.Proofs.SignatureFile.WellFormed

/-!
Nested classes of any name. On its line a nested class has what follows the name of the class and a dollar
sign, or its whole name, and the reader takes it for a nested class of the class in any case. Main statement:
a class has the lines of the one whose nested classes are named so (`Writer.classLines_qualified`).
-/

namespace ApiSurface

open ApiSurface.Text ApiSurface.Line

/-- What the line of a nested class has as its name. -/
def nestedToken (className nestedName : List Char) : List Char :=
  (afterLead? (className ++ ['$']) nestedName).getD nestedName

/-- A part of a name on the line of a nested class is a part of the name. -/
theorem mem_of_mem_nestedToken {className nestedName : List Char} {c : Char}
    (mem : c ∈ nestedToken className nestedName) : c ∈ nestedName := by
  unfold nestedToken at mem
  cases found : afterLead? (className ++ ['$']) nestedName with
  | none => rwa [found] at mem
  | some rest =>
    rw [found] at mem
    rw [afterLead?, isPrefixOf?_eq_some_iff] at found
    exact found ▸ List.mem_append_right _ mem

/-- The member under the name under which it is read back from its line. -/
def Member.inClass (className : String) (m : Member) : Member :=
  match m.detail with
  | .nested => { m with name := className ++ "$" ++ String.ofList (nestedToken className.toList m.name.toList) }
  | _ => m

variable {className : String} {m : Member}

theorem Member.inClass_of_nested (nested : m.detail = .nested) : m.inClass className =
    { m with name := className ++ "$" ++ String.ofList (nestedToken className.toList m.name.toList) } := by
  rw [inClass, nested]

theorem Member.inClass_of_ne (other : m.detail ≠ .nested) : m.inClass className = m := by
  unfold inClass
  split
  · rename_i nested
    exact absurd nested other
  · rfl

theorem Member.inClass_cases (className : String) (m : Member) :
    ∃ name, m.inClass className = { m with name := name } := by
  by_cases nested : m.detail = .nested
  · exact ⟨_, inClass_of_nested nested⟩
  · exact ⟨m.name, inClass_of_ne nested⟩

/-- The name on the line of a nested class is the same under both names. -/
theorem formatMember_inClass (style : LineStyle) (scope : Erasure) (className : String) (m : Member) :
    formatMember style scope className (m.inClass className) = formatMember style scope className m := by
  by_cases nested : m.detail = .nested
  · rw [Member.inClass_of_nested nested]
    have name : (className ++ "$" ++ String.ofList (nestedToken className.toList m.name.toList)).toList =
        (className.toList ++ ['$']) ++ nestedToken className.toList m.name.toList := by simp
    simp only [formatMember, detailTokens, Member.kind, nested, name, afterLead?_append, Option.getD_some]
    rfl
  · rw [Member.inClass_of_ne nested]

namespace ClassDescription

/-- The class with the names of nested classes under which they are read back. -/
def qualified (c : ClassDescription) : ClassDescription :=
  c.withMembers fun kind => (c.members kind).map (Member.inClass c.name)

theorem members_qualified (c : ClassDescription) (kind : MemberKind) :
    c.qualified.members kind = (c.members kind).map (Member.inClass c.name) := by
  have single : ((c.members .superclass).map (Member.inClass c.name)).length ≤ 1 := by
    rw [List.length_map]
    exact c.length_members_superclass
  exact congrFun (c.members_withMembers (f := fun kind => (c.members kind).map (Member.inClass c.name)) single) kind

theorem declared_qualified (c : ClassDescription) (kind : MemberKind) :
    c.qualified.declared kind = (c.declared kind).map (Member.inClass c.name) := by
  rw [declared, members_qualified, List.filter_map, declared]
  congr 1
  refine List.filter_congr fun m _ => ?_
  obtain ⟨name, same⟩ := m.inClass_cases c.name
  simp only [Function.comp_apply, same]
  rfl

end ClassDescription

namespace Writer

variable {w : Writer}

theorem kindLines_qualified (c : ClassDescription) (scope : Erasure) (kind : MemberKind) :
    w.kindLines c.qualified scope kind = w.kindLines c scope kind := by
  have above : c.qualified.superclass.isNone = c.superclass.isNone := by
    have members := c.members_qualified .superclass
    simp only [ClassDescription.members] at members
    cases some : c.superclass <;> cases other : c.qualified.superclass <;> simp [some, other] at members ⊢
  have block (m : Member) : w.memberBlock c.qualified scope (m.inClass c.name) = w.memberBlock c scope m := by
    obtain ⟨name, same⟩ := m.inClass_cases c.name
    have uses : (m.inClass c.name).annotations = m.annotations := by rw [same]
    have line := formatMember_inClass w.style scope c.name m
    simp only [memberBlock, ClassDescription.qualified, ClassDescription.withMembers_name, line, uses]
  simp only [kindLines, above, ClassDescription.declared_qualified, List.mapM_map, Function.comp_def, block]

/-- A class has the lines of the one whose nested classes have the names under which they are read back. -/
theorem classLines_qualified (c : ClassDescription) : w.classLines c.qualified = w.classLines c := by
  have kinds (scope : Erasure) : w.kindLines c.qualified scope = w.kindLines c scope :=
    funext (kindLines_qualified c scope)
  simp only [classLines, kinds]
  rfl

end Writer
end ApiSurface
