import ApiSurface.Annotated.Basic
import ApiSurface.Modifiers
import ApiSurface.Text.Quoted

/-!
Members of a class: super types, fields, methods, constructors and nested classes. The types of a member
are text as it is written in source. Main statements: a tag names its kind (`ofTag?_tag`), and a
constructor has the simple name of its class (`constructor_name`).
-/

namespace ApiSurface

open ApiSurface.Text

/-- The kinds of members. -/
inductive MemberKind where
  | superclass | superinterface | field | method | constructor | nested
  deriving DecidableEq, Repr

namespace MemberKind

/-- The kinds in the order in which their members are written. -/
def writeOrder : List MemberKind :=
  [.superclass, .superinterface, .field, .method, .constructor, .nested]

/-- The first word of a line with such a member. -/
def tag : MemberKind → String
  | .superclass => "SUPR"
  | .superinterface => "INTF"
  | .field => "FLD"
  | .method => "METH"
  | .constructor => "CONS"
  | .nested => "INNER"

/-- The kind that a word is the tag of. -/
def ofTag? (word : String) : Option MemberKind := writeOrder.find? (·.tag == word)

@[simp] theorem ofTag?_tag (k : MemberKind) : ofTag? k.tag = some k := by cases k <;> decide

end MemberKind

/-- What a member has according to its kind. -/
inductive Detail where
  | field (type : String) (constant : Option String)
  /-- The arguments are one text, with commas and without spaces between them. -/
  | method (typeParameters : Option String) (result : String) (arguments : String)
      (throws : List String) (default : Option String)
  | constructor (typeParameters : Option String) (arguments : String) (throws : List String)
  | nested
  | superclass
  /-- Not direct if inherited through another super type. -/
  | superinterface (direct : Bool)
  deriving DecidableEq, Repr

namespace Detail

/-- The kind of member that has such details. -/
def kind : Detail → MemberKind
  | .field .. => .field
  | .method .. => .method
  | .constructor .. => .constructor
  | .nested => .nested
  | .superclass => .superclass
  | .superinterface _ => .superinterface

/-- The type parameters that the member itself declares. -/
def typeParameters? : Detail → Option String
  | .method typeParameters .. => typeParameters
  | .constructor typeParameters .. => typeParameters
  | _ => none

/-- A text that may be missing, as part of an order key: missing ones come first. -/
def optionKey : Option String → String
  | none => "-"
  | some text => "=" ++ quoted text

/-- A list as part of an order key: longer ones come before those that they begin with. -/
def listKey (texts : List String) : String := "[" ++ String.intercalate ", " (texts.map quoted) ++ "]"

/-- The order of members with one name and kind: that of their details, quoted and in turn. -/
def orderKey : Detail → String
  | .field type constant => quoted type ++ ", " ++ optionKey constant
  | .method typeParameters result arguments throws default =>
    String.intercalate ", "
      [optionKey typeParameters, quoted result, quoted arguments, listKey throws, optionKey default]
  | .constructor typeParameters arguments throws =>
    String.intercalate ", " [optionKey typeParameters, quoted arguments, listKey throws]
  | .nested | .superclass => ""
  | .superinterface direct => if direct then "true" else "false"

end Detail

/-- The last part of a qualified name: what follows the last dot, and in it the last dollar sign. -/
def simpleName (name : String) : String :=
  String.ofList (lastPiece '$' (lastPiece '.' name.toList))

/-- A member of a class. -/
structure Member where
  declaringClass : String
  /-- The simple name of fields, methods and constructors; the qualified name of other classes. -/
  name : String
  modifiers : Modifiers
  annotations : List AnnotationUse
  detail : Detail
  deriving Repr

namespace Member

/-- The kind of the member. -/
def kind (m : Member) : MemberKind := m.detail.kind

/-- A field. -/
def field (declaringClass name : String) (modifiers : Modifiers) (type : String)
    (constant : Option String) : Member :=
  ⟨declaringClass, name, modifiers, [], .field type constant⟩

/-- A method without type parameters, exceptions and default. -/
def method (declaringClass name : String) (modifiers : Modifiers) (result arguments : String) : Member :=
  ⟨declaringClass, name, modifiers, [], .method none result arguments [] none⟩

/-- A constructor without type parameters and exceptions. -/
def constructor (declaringClass : String) (modifiers : Modifiers) (arguments : String) : Member :=
  ⟨declaringClass, simpleName declaringClass, modifiers, [], .constructor none arguments []⟩

/-- A nested class, by its qualified name. -/
def nested (declaringClass name : String) (modifiers : Modifiers) : Member :=
  ⟨declaringClass, name, modifiers, [], .nested⟩

/-- The superclass. -/
def superclass (declaringClass name : String) : Member :=
  ⟨declaringClass, name, .none, [], .superclass⟩

/-- A super interface. -/
def superinterface (declaringClass name : String) (direct : Bool) : Member :=
  ⟨declaringClass, name, .none, [], .superinterface direct⟩

/-- With these exceptions, if it is a method or a constructor. -/
def withThrows (m : Member) (throws : List String) : Member :=
  match m.detail with
  | .method ps result arguments _ default => { m with detail := .method ps result arguments throws default }
  | .constructor ps arguments _ => { m with detail := .constructor ps arguments throws }
  | _ => m

/-- With these type parameters, if it is a method or a constructor. -/
def withTypeParameters (m : Member) (parameters : String) : Member :=
  match m.detail with
  | .method _ result arguments throws default =>
    { m with detail := .method (some parameters) result arguments throws default }
  | .constructor _ arguments throws =>
    { m with detail := .constructor (some parameters) arguments throws }
  | _ => m

/-- With this default, if it is a method. -/
def withDefault (m : Member) (value : String) : Member :=
  match m.detail with
  | .method ps result arguments throws _ =>
    { m with detail := .method ps result arguments throws (some value) }
  | _ => m

/-- Without its constant, if it is a field. -/
def withoutConstant (m : Member) : Member :=
  match m.detail with
  | .field type _ => { m with detail := .field type none }
  | _ => m

/-- With one more annotation. -/
def annotate (m : Member) (use : AnnotationUse) : Member :=
  { m with annotations := m.annotations ++ [use] }

/-- Whether the member is in the class itself and not inherited through an interface. -/
def isDirect (m : Member) : Bool :=
  match m.detail with
  | .superinterface direct => direct
  | _ => true

/-- The constant of a field. -/
def constant? (m : Member) : Option String :=
  match m.detail with
  | .field _ constant => constant
  | _ => none

/-- The type of a field. -/
def fieldType? (m : Member) : Option String :=
  match m.detail with
  | .field type _ => some type
  | _ => none

/-- A constructor has the simple name of its class. -/
theorem constructor_name (declaringClass arguments : String) (modifiers : Modifiers) :
    (constructor declaringClass modifiers arguments).name = simpleName declaringClass := rfl

end Member

end ApiSurface
