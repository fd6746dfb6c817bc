import ApiSurface.Annotated.Basic
import ApiSurface.ClassFile.Elements
import ApiSurface.ClassFile.Pool
import ApiSurface.Literal.Constant

/-!
Constants and annotations of class files in the form in which they are written. The type of an element
follows from the tag of its value; an array has the type of its first item.
-/

namespace ApiSurface.ClassFile

open ApiSurface.Text ApiSurface.Literal

/-- The number of an entry. -/
def integerText (bits : UInt32) : List Char := (toString (signed32 bits)).toList

/-- The truth value of an entry. -/
def truthText (bits : UInt32) : List Char := if bits = 0 then "false".toList else "true".toList

/-- The character of an entry; one of its own stands for what is no character. -/
def characterText (bits : UInt32) : List Char :=
  charLiteral (if bits.toNat.isValidChar then Char.ofNat bits.toNat else '\ufffd')

/-- The number of an entry of 64 bits. -/
def longText (bits : UInt64) : List Char := (toString (signed64 bits)).toList

/-- The number of a floating-point entry. -/
def singleText (bits : UInt32) : List Char := floatLiteral (singleOf bits)

/-- The number of a floating-point entry of 64 bits. -/
def doubleText (bits : UInt64) : List Char := doubleLiteral (doubleOf bits)

/-- The constant of a field of this type. -/
def constantText (pool : Pool) (type : List Char) (index : UInt16) : Except ClassFault (List Char) := do
  match ← pool.entry index with
  | .integer bits =>
    return if type = "boolean".toList then truthText bits
      else if type = charType then characterText bits
      else integerText bits
  | .long bits => return longText bits
  | .float bits => return singleText bits
  | .double bits => return doubleText bits
  | .stringRef text => return stringLiteral (← pool.text text)
  | found => throw (.unsupportedConstant found)

/-- A value that is written as it is, with its type. -/
def literal (type : String) (text : List Char) : String × ElementValue :=
  (type, .literal (String.ofList text))

/-- The type and the value of a constant, as its tag says. -/
def describeConstant (pool : Pool) (tag : UInt8) (index : UInt16) :
    Except ClassFault (String × ElementValue) := do
  let found ← pool.entry index
  match Char.ofNat tag.toNat, found with
  | 'B', .integer bits => return literal "byte" (integerText bits)
  | 'S', .integer bits => return literal "short" (integerText bits)
  | 'I', .integer bits => return literal "int" (integerText bits)
  | 'Z', .integer bits => return literal "boolean" (truthText bits)
  | 'C', .integer bits => return literal "char" (characterText bits)
  | 'J', .long bits => return literal "long" (longText bits)
  | 'F', .float bits => return literal "float" (singleText bits)
  | 'D', .double bits => return literal "double" (doubleText bits)
  | 's', .text _ => return ("java.lang.String", .string (String.ofList (← pool.text index)))
  | _, _ => throw (.elementMismatch tag found)

/-- The type that the descriptor of an index stands for. -/
def typeText (pool : Pool) (index : UInt16) : Except ClassFault String := do
  let type ← liftDescriptor Descriptor.ofField (← pool.text index)
  return String.ofList type.render

mutual

/-- The type and the value of an element. -/
def describeElement (pool : Pool) : ElementEntry → Except ClassFault (String × ElementValue)
  | .constant tag index => describeConstant pool tag index
  | .enumConstant type name => do
    let type ← typeText pool type
    return (type, .literal (type ++ "." ++ String.ofList (← pool.text name)))
  | .classLiteral type => do
    return ("java.lang.Class", .literal ((← typeText pool type) ++ ".class"))
  | .nested use => do
    let use ← describeUse pool use
    return (use.name, .nested use)
  | .array items => do
    let values ← describeElements pool items
    let type := (values.head?.map Prod.fst).getD "java.lang.Object"
    return (type ++ "[]", .array (values.map Prod.snd))

/-- An annotation on the annotated element itself. -/
def describeUse (pool : Pool) : UseEntryOf ElementEntry → Except ClassFault AnnotationUse
  | ⟨type, pairs⟩ => do
    let name ← typeText pool type
    return ⟨0, name, ← describePairs pool pairs, none⟩

/-- Elements with their values. -/
def describePairs (pool : Pool) :
    List (UInt16 × ElementEntry) → Except ClassFault (List AnnotationElement)
  | [] => return []
  | (name, value) :: more => do
    let (type, value) ← describeElement pool value
    let name ← pool.text name
    return ⟨type, String.ofList name, value⟩ :: (← describePairs pool more)

/-- Values with their types. -/
def describeElements (pool : Pool) :
    List ElementEntry → Except ClassFault (List (String × ElementValue))
  | [] => return []
  | value :: more => do
    let first ← describeElement pool value
    return first :: (← describeElements pool more)

end

/-- The index of a type that the place of a type annotation has. -/
def TargetDetail.typeIndex? : TargetDetail → Option UInt16
  | .typeParameter index => some index.toUInt16
  | .typeIndex index => some index
  | .bound parameter _ => some parameter.toUInt16
  | _ => none

/-- The index of a bound that the place of a type annotation has. -/
def TargetDetail.boundIndex? : TargetDetail → Option UInt16
  | .bound _ place => some place.toUInt16
  | _ => none

/-- The index of a parameter that the place of a type annotation has. -/
def TargetDetail.parameterIndex? : TargetDetail → Option UInt16
  | .formalParameter index => some index.toUInt16
  | _ => none

/-- A step of a path as it is written. -/
def stepText (step : UInt8 × UInt8) : String := toString step.1.toNat ++ ":" ++ toString step.2.toNat

/-- The place of a type annotation. -/
def PlacedUse.place (p : PlacedUse) : TypePlace :=
  ⟨p.target, p.detail.typeIndex?, p.detail.boundIndex?, p.detail.parameterIndex?,
    "/".intercalate (p.path.map stepText)⟩

/-- The attribute that holds annotations. -/
def usesAttribute : String := "RuntimeVisibleAnnotations"

/-- The attribute that holds type annotations. -/
def placedUsesAttribute : String := "RuntimeVisibleTypeAnnotations"

/-- The attribute that holds the annotations of parameters. -/
def parameterUsesAttribute : String := "RuntimeVisibleParameterAnnotations"

/-- The annotations and then the type annotations among some attributes. -/
def describeUses (pool : Pool) (attributes : List Attribute) : Except ClassFault (List AnnotationUse) := do
  let uses ← pool.attributeValue? usesAttribute (counted decodeUse) attributes
  let uses ← (uses.getD []).mapM (describeUse pool)
  let placed ← pool.attributeValue? placedUsesAttribute (counted PlacedUse.decode) attributes
  let placed ← (placed.getD []).mapM fun p => do
    return { ← describeUse pool p.use with place := some p.place }
  return uses ++ placed

/-- The annotations of parameters among some attributes; the first parameter has target 1. -/
def describeParameterUses (pool : Pool) (attributes : List Attribute) :
    Except ClassFault (List AnnotationUse) := do
  let uses ← pool.attributeValue? parameterUsesAttribute decodeParameterUses attributes
  let described ← (uses.getD []).zipIdx.mapM fun (list, place) =>
    list.mapM fun use => do
      return { ← describeUse pool use with target := UInt32.ofNat (place + 1) }
  return described.flatten

end ApiSurface.ClassFile
