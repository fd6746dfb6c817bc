import ApiSurface.Literal.Escape

/-!
Annotations as they are used on a class, a member or a parameter: a name and elements with values, each
on a line of its own.

    anno <target> <name>(<type> <element>=<value>, ...)
    annoEx <target> <target type> <type> <bound> <parameter> <path> <name>(...)

The target is 0 for the annotated element itself and `n + 1` for its parameter `n`. The second form tells
the place in a type; an index that does not apply, or an empty path, is a dash.
-/

namespace ApiSurface

open ApiSurface.Text

/-- The place of a type annotation in a type. -/
structure TypePlace where
  targetType : UInt8
  typeIndex : Option UInt16
  boundIndex : Option UInt16
  parameterIndex : Option UInt16
  /-- Steps `kind:argument` joined by slashes; empty for the outermost type. -/
  path : String
  deriving DecidableEq, Repr

/-- An element of an annotation with a value. -/
structure ElementOf (ν : Type) where
  type : String
  name : String
  value : ν
  deriving Repr

/-- An annotation whose elements have such values. -/
structure AnnotationOf (ν : Type) where
  target : UInt32
  name : String
  elements : List (ElementOf ν)
  /-- Present for type annotations. -/
  place : Option TypePlace
  deriving Repr

/-- The value of an element. -/
inductive ElementValue where
  /-- Numbers, truth values, characters, enum constants and classes as they are written. -/
  | literal (text : String)
  /-- The text of a string. -/
  | string (text : String)
  | array (values : List ElementValue)
  | nested (use : AnnotationOf ElementValue)
  deriving Repr

instance : Inhabited ElementValue := ⟨.literal ""⟩

instance {ν : Type} : Inhabited (AnnotationOf ν) := ⟨⟨0, "", [], none⟩⟩

/-- An element with its value. -/
abbrev AnnotationElement := ElementOf ElementValue

/-- An annotation on something. -/
abbrev AnnotationUse := AnnotationOf ElementValue

/-- The value of the first element of this name. -/
def AnnotationOf.value? {ν : Type} (use : AnnotationOf ν) (name : String) : Option ν :=
  (use.elements.find? (·.name == name)).map (·.value)

/-- What an annotation line begins with. -/
def useLead : List Char := "anno ".toList

/-- What the line of a type annotation begins with. -/
def placedUseLead : List Char := "annoEx ".toList

/-- Whether a text begins like an annotation. -/
def beginsUse (cs : List Char) : Bool :=
  (afterLead? useLead cs).isSome || (afterLead? placedUseLead cs).isSome

/-! ### Printing -/

/-- An index, or a dash. -/
def printIndex (index : Option UInt16) : List Char :=
  match index with
  | some i => decimal i.toNat
  | none => ['-']

/-- What stands between the first word of a line and the name. -/
def printTarget (target : UInt32) (place : Option TypePlace) : List Char :=
  match place with
  | none => useLead ++ decimal target.toNat
  | some p =>
    placedUseLead ++ decimal target.toNat ++ ' ' :: decimal p.targetType.toNat ++
      ' ' :: printIndex p.typeIndex ++ ' ' :: printIndex p.boundIndex ++
      ' ' :: printIndex p.parameterIndex ++
      ' ' :: (if p.path.isEmpty then ['-'] else p.path.toList)

mutual

/-- A value as it is written. -/
def printValue : ElementValue → List Char
  | .literal text => text.toList
  | .string text => '"' :: Literal.escape '"' text.toList ++ ['"']
  | .array values => '[' :: printValues values ++ [']']
  | .nested use => printUse use

/-- Values with commas and spaces between them. -/
def printValues : List ElementValue → List Char
  | [] => []
  | [v] => printValue v
  | v :: w :: more => printValue v ++ ',' :: ' ' :: printValues (w :: more)

/-- An annotation as it is written. -/
def printUse : AnnotationOf ElementValue → List Char
  | ⟨target, name, elements, place⟩ =>
    printTarget target place ++ ' ' :: name.toList ++ '(' :: printElements elements ++ [')']

/-- Elements with commas and spaces between them. -/
def printElements : List (ElementOf ElementValue) → List Char
  | [] => []
  | [e] => printElement e
  | e :: f :: more => printElement e ++ ',' :: ' ' :: printElements (f :: more)

/-- An element as it is written. -/
def printElement : ElementOf ElementValue → List Char
  | ⟨type, name, value⟩ => type.toList ++ ' ' :: name.toList ++ '=' :: printValue value

end

/-- The line of an annotation. -/
def AnnotationOf.line (use : AnnotationUse) : String := String.ofList (printUse use)

/-- The text of a value. -/
def ElementValue.text (value : ElementValue) : String := String.ofList (printValue value)

end ApiSurface
