import ApiSurface.Class
import ApiSurface.ClassFile.Flags
import ApiSurface.ClassFile.Modules
import ApiSurface.ClassFile.Tables
import ApiSurface.ClassFile.Uses

/-!
From the bytes of a class file to the class or module that it describes. Only what is accessible is
described; of hidden fields and nested classes the simple names are kept. Signatures, where there are
any, count more than descriptors. The description is in canonical form.
-/

namespace ApiSurface

open ApiSurface.Text

namespace ClassFile

/-! ### Nested classes -/

/-- What the table of nested classes says about a class. -/
structure NestedPart where
  modifiers : Modifiers
  hidden : Ordered.Set String
  members : List Member

/-- Adds what a row says about the class of this name: its own modifiers, a class in it, or nothing. -/
def NestedPart.add (pool : Pool) (className : List Char) (part : NestedPart) (row : NestedRow) :
    Except ClassFault NestedPart := do
  let nestedName ← pool.className row.nested
  let modifiers := modifiersOf nestedFlags row.flags
  if nestedName = className then return { part with modifiers := modifiers }
  else if row.outer = 0 ∨ row.simpleName = 0 then return part
  else if (← pool.className row.outer) ≠ className then return part
  else if modifiers.isHidden then
    return { part with hidden := part.hidden.insert (String.ofList (← pool.text row.simpleName)) }
  else
    let m := Member.nested (String.ofList className) (String.ofList nestedName) modifiers
    return { part with members := part.members ++ [m] }

/-! ### Super types -/

/-- What a class declares about its type. -/
structure SuperTypes where
  typeParameters : Option String
  superclass : Option String
  interfaces : List String

/-- The super types of a class, from its signature if there is one. -/
def superTypes (c : ClassFile) : Except ClassFault SuperTypes := do
  match ← c.pool.attributeText? "Signature" c.attributes with
  | some text =>
    let signature ← liftDescriptor Descriptor.ofClass text
    return ⟨signature.parameters.map fun ps => String.ofList (renderParameters ps),
      some (String.ofList signature.superclass.render),
      signature.interfaces.map fun t => String.ofList t.render⟩
  | none =>
    let superclass ← if c.superclass = 0 then pure none else some <$> c.pool.className c.superclass
    let interfaces ← c.interfaces.mapM c.pool.className
    return ⟨none, superclass.map String.ofList, interfaces.map String.ofList⟩

/-! ### Members -/

/-- A field of the class of this name. -/
def describeField (pool : Pool) (className : String) (name : List Char) (modifiers : Modifiers)
    (entry : MemberEntry) : Except ClassFault Member := do
  let signature ← match ← pool.attributeText? "Signature" entry.attributes with
    | some text => pure text
    | none => pool.text entry.descriptor
  let type := (← liftDescriptor Descriptor.ofField signature).render
  let constant ← pool.attributeValue? "ConstantValue" u16 entry.attributes
  let constant ← constant.mapM (constantText pool type)
  let m := Member.field className (String.ofList name) modifiers.visible (String.ofList type)
    (constant.map String.ofList)
  return { m with annotations := ← describeUses pool entry.attributes }

/-- What a method declares, with the exceptions of an attribute if the signature names none. -/
structure MethodTypes where
  typeParameters : Option String
  arguments : List (List Char)
  result : String
  throws : List String

/-- The types of a method, from its signature if there is one. -/
def methodTypes (pool : Pool) (entry : MemberEntry) : Except ClassFault MethodTypes := do
  let plain ← liftDescriptor Descriptor.ofMethod (← pool.text entry.descriptor)
  let signature ← match ← pool.attributeText? "Signature" entry.attributes with
    | some text => liftDescriptor Descriptor.ofMethod text
    | none => pure plain
  let throws ←
    if signature.throws.isEmpty then
      let thrown ← pool.attributeValue? "Exceptions" (counted u16) entry.attributes
      (thrown.getD []).mapM pool.className
    else pure (signature.throws.map JavaType.render)
  return ⟨signature.parameters.map fun ps => String.ofList (renderParameters ps),
    signature.arguments.map JavaType.render, String.ofList signature.result.render,
    throws.map String.ofList⟩

/-- Arguments of which the last one, if it is an array, takes any number of values. -/
def variadic : List (List Char) → List (List Char)
  | [] => []
  | [last] =>
    match beforeTail? ['[', ']'] last with
    | some element => [element ++ ['.', '.', '.']]
    | none => [last]
  | a :: b :: more => a :: variadic (b :: more)

/-- The default of an element of an annotation. -/
def defaultText? (pool : Pool) (entry : MemberEntry) : Except ClassFault (Option String) := do
  match ← pool.attributeValue? "AnnotationDefault" decodeElement entry.attributes with
  | none => return none
  | some element => return some (← describeElement pool element).2.text

/-- The name that constructors have in class files. -/
def constructorName : List Char := "<init>".toList

/-- The name of what runs when a class is made ready. -/
def classInitName : List Char := "<clinit>".toList

/-- A method or a constructor of the class of this name. -/
def describeMethod (pool : Pool) (className : String) (name : List Char) (modifiers : Modifiers)
    (entry : MemberEntry) : Except ClassFault Member := do
  let types ← methodTypes pool entry
  let arguments := if modifiers.has .varargs then variadic types.arguments else types.arguments
  let arguments := String.ofList (join [','] arguments)
  let m := if name = constructorName then Member.constructor className modifiers.visible arguments
    else Member.method className (String.ofList name) modifiers.visible types.result arguments
  let m := m.withThrows types.throws
  let m := match types.typeParameters with
    | some ps => m.withTypeParameters ps
    | none => m
  let m := match ← defaultText? pool entry with
    | some value => m.withDefault value
    | none => m
  let uses ← describeUses pool entry.attributes
  return { m with annotations := uses ++ (← describeParameterUses pool entry.attributes) }

/-- The field of an entry, or only its name if it is hidden. -/
def fieldOrName (pool : Pool) (className : String) (entry : MemberEntry) :
    Except ClassFault (String ⊕ Member) := do
  let name ← pool.text entry.name
  let modifiers := modifiersOf fieldFlags entry.flags
  if modifiers.isHidden then return .inl (String.ofList name)
  else return .inr (← describeField pool className name modifiers entry)

/-- The method or constructor of an entry, unless it is hidden. -/
def accessibleMethod? (pool : Pool) (className : String) (entry : MemberEntry) :
    Except ClassFault (Option Member) := do
  let name ← pool.text entry.name
  let modifiers := modifiersOf methodFlags entry.flags
  if name = classInitName ∨ modifiers.isHidden then return none
  else return some (← describeMethod pool className name modifiers entry)

/-! ### Classes -/

/-- The class of this name that a class file describes. -/
def describeClass (c : ClassFile) (name : List Char) : Except ClassFault ClassDescription := do
  let className := String.ofList name
  let rows ← c.pool.attributeValue? "InnerClasses" (counted NestedRow.decode) c.attributes
  let nested ← (rows.getD []).foldlM (NestedPart.add c.pool name)
    ⟨modifiersOf classFlags c.flags, ∅, []⟩
  let isInterface := nested.modifiers.has .interface
  let modifiers := if isInterface then nested.modifiers.insert .abstract else nested.modifiers
  let types ← c.superTypes
  let superclass := if isInterface then none else types.superclass
  let uses ← describeUses c.pool c.attributes
  let fields ← c.fields.mapM (fieldOrName c.pool className)
  let methods ← c.methods.mapM (accessibleMethod? c.pool className)
  let start := { ClassDescription.named className modifiers with
    typeParameters := types.typeParameters
    annotations := uses
    hiddenFields := some (.ofList (fields.filterMap Sum.getLeft?))
    hiddenClasses := some nested.hidden }
  let members := nested.members ++
    (superclass.map (Member.superclass className)).toList ++
    types.interfaces.map (Member.superinterface className · true) ++
    fields.filterMap Sum.getRight? ++ methods.filterMap id
  return (members.foldl ClassDescription.addMember start).canonicalize

/-- The class or module that a class file describes. -/
def describe (c : ClassFile) (name : List Char) : Except ClassFault ClassDescription :=
  if isSet c.flags moduleFlag then
    (describeModule c.pool c.attributes).map ClassDescription.ofModule
  else c.describeClass name

end ClassFile

/-- Why bytes describe no class: what is wrong, and in which class, if its name is known. -/
structure BadClassFile where
  className : Option String
  fault : ClassFile.ClassFault
  deriving DecidableEq, Repr

/-- The fault in words. -/
def BadClassFile.message (bad : BadClassFile) : String :=
  "Invalid class file for " ++ bad.className.getD "<unknown>" ++ ": " ++ bad.fault.message

namespace ClassFile

/-- The class or module that the bytes of a class file describe. What follows the class file in the bytes
does not count. -/
def parse (bytes : List UInt8) : Except BadClassFile ClassDescription :=
  if !magic.isPrefixOf bytes then .error ⟨none, .badMagic⟩
  else
    match decode bytes with
    | .error fault => .error ⟨none, .layout fault⟩
    | .ok (c, _) =>
      match c.pool.className c.thisClass with
      | .error fault => .error ⟨none, fault⟩
      | .ok name => (c.describe name).mapError (⟨some (String.ofList name), ·⟩)

end ClassFile

end ApiSurface
