import ApiSurface.Text.Basic

/-!
Types of the Java language, apart from any spelling, and how they are written in source: nested classes
with `$`, type arguments between angle brackets and joined by commas without spaces, so that a type is
one token of a line.
-/

namespace ApiSurface

open ApiSurface.Text

/-- The types that are no references. -/
inductive Primitive where
  | byte | char | double | float | int | long | short | boolean | void
  deriving DecidableEq, Repr

namespace Primitive

/-- All of them. -/
def all : List Primitive := [.byte, .char, .double, .float, .int, .long, .short, .boolean, .void]

/-- The name in source. -/
def name : Primitive → List Char
  | .byte => "byte".toList
  | .char => "char".toList
  | .double => "double".toList
  | .float => "float".toList
  | .int => "int".toList
  | .long => "long".toList
  | .short => "short".toList
  | .boolean => "boolean".toList
  | .void => "void".toList

/-- The letter in a descriptor. -/
def letter : Primitive → Char
  | .byte => 'B'
  | .char => 'C'
  | .double => 'D'
  | .float => 'F'
  | .int => 'I'
  | .long => 'J'
  | .short => 'S'
  | .boolean => 'Z'
  | .void => 'V'

/-- The primitive type with this letter. -/
def ofLetter? (c : Char) : Option Primitive := all.find? (·.letter = c)

/-- The primitive type with this name. -/
def ofName? (name : List Char) : Option Primitive := all.find? (·.name = name)

@[simp] theorem ofLetter?_letter (p : Primitive) : ofLetter? p.letter = some p := by
  cases p <;> decide

@[simp] theorem ofName?_name (p : Primitive) : ofName? p.name = some p := by
  cases p <;> decide

end Primitive

mutual

/-- A type. -/
inductive JavaType where
  | primitive (p : Primitive)
  | variable (name : List Char)
  | array (element : JavaType)
  /-- A class with its type arguments, and the nested classes selected from it in turn. -/
  | classType (name : List Char) (arguments : Option (List TypeArgument)) (nested : List NestedType)

/-- What stands for a type parameter. -/
inductive TypeArgument where
  | any
  | extending (bound : JavaType)
  | superOf (bound : JavaType)
  | exactly (type : JavaType)

/-- A nested class by its simple name, with its type arguments. -/
inductive NestedType where
  | mk (name : List Char) (arguments : Option (List TypeArgument))

end

/-- The dotted form of a name with slashes; nested classes keep their dollar sign. -/
def dotted (name : List Char) : List Char := replaceChar '/' '.' name

mutual

/-- The type as it is written in source. -/
def JavaType.render : JavaType → List Char
  | .primitive p => p.name
  | .variable name => name
  | .array element => element.render ++ ['[', ']']
  | .classType name arguments nested =>
    dotted name ++ renderArguments? arguments ++ renderNested nested

/-- Type arguments between angle brackets, if there are any brackets. -/
def renderArguments? : Option (List TypeArgument) → List Char
  | none => []
  | some arguments => '<' :: renderArguments arguments ++ ['>']

/-- Type arguments with commas between them. -/
def renderArguments : List TypeArgument → List Char
  | [] => []
  | [a] => a.render
  | a :: b :: more => a.render ++ ',' :: renderArguments (b :: more)

/-- One type argument. -/
def TypeArgument.render : TypeArgument → List Char
  | .any => ['?']
  | .extending bound => "? extends ".toList ++ bound.render
  | .superOf bound => "? super ".toList ++ bound.render
  | .exactly type => type.render

/-- Nested classes, each after a dollar sign. -/
def renderNested : List NestedType → List Char
  | [] => []
  | .mk name arguments :: more => '$' :: name ++ renderArguments? arguments ++ renderNested more

end

/-- A declared type variable with its bounds, the class bound first. -/
structure TypeParameter where
  name : List Char
  bounds : List JavaType

/-- The class that every class extends. -/
def objectName : List Char := "java.lang.Object".toList

/-- A type parameter as it is written in source; one without bounds extends the class of all objects. -/
def TypeParameter.render (p : TypeParameter) : List Char :=
  let bounds := if p.bounds.isEmpty then [objectName] else p.bounds.map JavaType.render
  p.name ++ " extends ".toList ++ join " & ".toList bounds

/-- Type parameters between angle brackets. -/
def renderParameters (ps : List TypeParameter) : List Char :=
  '<' :: join [','] (ps.map TypeParameter.render) ++ ['>']

/-- What a class declares about its type. -/
structure ClassSignature where
  parameters : Option (List TypeParameter)
  superclass : JavaType
  interfaces : List JavaType

/-- What a method declares about its type. -/
structure MethodSignature where
  parameters : Option (List TypeParameter)
  arguments : List JavaType
  result : JavaType
  throws : List JavaType

end ApiSurface
