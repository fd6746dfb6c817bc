import ApiSurface.Member
import ApiSurface.Module.Basic

/-!
Classes, and modules in the place of a class. The canonical form of a class lists members and annotations
in an order of their own instead of the order in which they were found.
-/

namespace ApiSurface

open ApiSurface.Text

/-- A class, or a module if `moduleInfo` is there. -/
structure ClassDescription where
  name : String
  modifiers : Modifiers
  typeParameters : Option String
  superclass : Option Member
  interfaces : List Member
  fields : List Member
  methods : List Member
  constructors : List Member
  nested : List Member
  annotations : List AnnotationUse
  /-- The simple names of fields that are not accessible. -/
  hiddenFields : Option (Ordered.Set String)
  /-- The simple names of nested classes that are not accessible. -/
  hiddenClasses : Option (Ordered.Set String)
  moduleInfo : Option ModuleDescription

namespace ClassDescription

/-- A class without members. -/
def named (name : String) (modifiers : Modifiers) : ClassDescription :=
  ⟨name, modifiers, none, none, [], [], [], [], [], [], none, none, none⟩

/-- A module in the place of a class. -/
def ofModule (m : ModuleDescription) : ClassDescription :=
  { named m.name .none with moduleInfo := some m }

/-- Whether this is a module. -/
def isModule (c : ClassDescription) : Bool := c.moduleInfo.isSome

/-- The last part of the name. -/
def simpleName (c : ClassDescription) : String := ApiSurface.simpleName c.name

/-- What is before the last dot of the name. -/
def packageName (c : ClassDescription) : String :=
  String.ofList (join ['.'] (pieces '.' c.name.toList).dropLast)

/-- The members of a kind. -/
def members (c : ClassDescription) : MemberKind → List Member
  | .superclass => c.superclass.toList
  | .superinterface => c.interfaces
  | .field => c.fields
  | .method => c.methods
  | .constructor => c.constructors
  | .nested => c.nested

/-- The class with the members of a kind changed. Of superclasses only the last one stays. -/
def updateMembers (c : ClassDescription) (kind : MemberKind) (change : List Member → List Member) :
    ClassDescription :=
  match kind with
  | .superclass => { c with superclass := (change c.superclass.toList).getLast? }
  | .superinterface => { c with interfaces := change c.interfaces }
  | .field => { c with fields := change c.fields }
  | .method => { c with methods := change c.methods }
  | .constructor => { c with constructors := change c.constructors }
  | .nested => { c with nested := change c.nested }

/-- The class with one more member, filed by its kind. -/
def addMember (c : ClassDescription) (m : Member) : ClassDescription :=
  c.updateMembers m.kind (· ++ [m])

/-- The members of a kind that the class itself declares. -/
def declared (c : ClassDescription) (kind : MemberKind) : List Member :=
  (c.members kind).filter fun m => m.declaringClass == c.name && m.isDirect

/-- The first field of this name. -/
def field? (c : ClassDescription) (name : String) : Option Member := c.fields.find? (·.name == name)

/-- The first method of this name. -/
def method? (c : ClassDescription) (name : String) : Option Member := c.methods.find? (·.name == name)

/-! ### Canonical form -/

/-- Annotations in the order of their lines. -/
def sortAnnotations (uses : List AnnotationUse) : List AnnotationUse :=
  uses.mergeSort fun a b => decide (a.line ≤ b.line)

/-- Whether a member may come before another one: by name, then by details. -/
def memberLe (a b : Member) : Bool :=
  decide (a.name < b.name) || (a.name == b.name && decide (a.detail.orderKey ≤ b.detail.orderKey))

/-- Members with their annotations sorted, in order. -/
def sortMembers (ms : List Member) : List Member :=
  (ms.map fun m => { m with annotations := sortAnnotations m.annotations }).mergeSort memberLe

/-- A set of hidden names, if there are any. -/
def nonempty? (names : Option (Ordered.Set String)) : Option (Ordered.Set String) :=
  names.filter (!·.isEmpty)

/-- The class with members and annotations in order and without empty sets of hidden names. -/
def canonicalize (c : ClassDescription) : ClassDescription :=
  { MemberKind.writeOrder.foldl (fun c kind => c.updateMembers kind sortMembers) c with
    annotations := sortAnnotations c.annotations
    hiddenFields := nonempty? c.hiddenFields
    hiddenClasses := nonempty? c.hiddenClasses }

end ClassDescription

end ApiSurface
