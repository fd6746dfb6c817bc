import ApiSurface.ClassFile.Basic
import ApiSurface.Decimal.Layout
import ApiSurface.JavaType.Descriptor
import ApiSurface.Text.Utf8

/-!
Looking things up in the pool of a class file, and everything that can be wrong with the contents of a
class file whose layout is right.
-/

namespace ApiSurface.ClassFile

open ApiSurface.Text ApiSurface.Decimal

/-! ### Entries in messages -/

/-- Numbers in messages have an exponent from `1e16` on and below `1e-4`; whole ones end in `.0`. -/
def entryStyle : Style := ⟨"NaN", "inf", 16, some (-3, 16)⟩

/-- The number of 32 bits in two's complement. -/
def signed32 (bits : UInt32) : Int := BitVec.toInt bits.toBitVec

/-- The number of 64 bits in two's complement. -/
def signed64 (bits : UInt64) : Int := BitVec.toInt bits.toBitVec

/-- The number of the 32-bit format. -/
def singleOf (bits : UInt32) : BinaryValue := .ofBits .single bits.toNat

/-- The number of the 64-bit format. -/
def doubleOf (bits : UInt64) : BinaryValue := .ofBits .double bits.toNat

/-- A kind of entry with what it holds. -/
def held (kind content : String) : String := kind ++ "(" ++ content ++ ")"

/-- An entry as it appears in messages. -/
def PoolEntry.shown : PoolEntry → String
  | .text bytes => held "Utf8" ("[" ++ ", ".intercalate (bytes.map fun b => toString b.toNat) ++ "]")
  | .integer bits => held "Integer" (toString (signed32 bits))
  | .float bits => held "Float" (String.ofList (entryStyle.text .single (singleOf bits)))
  | .long bits => held "Long" (toString (signed64 bits))
  | .double bits => held "Double" (String.ofList (entryStyle.text .double (doubleOf bits)))
  | .classRef name => held "Class" (toString name.toNat)
  | .stringRef index => held "String" (toString index.toNat)
  | .moduleRef name => held "Module" (toString name.toNat)
  | .packageRef name => held "Package" (toString name.toNat)
  | .other .. => "Other"

/-! ### Faults -/

/-- What a reference is expected to lead to. -/
inductive Wanted where
  | string | classRef | moduleRef | packageRef
  deriving DecidableEq, Repr

/-- What is wanted, in words. -/
def Wanted.message : Wanted → String
  | .string => "a string"
  | .classRef => "a class"
  | .moduleRef => "a module"
  | .packageRef => "a package"

/-- Why a class file describes nothing. -/
inductive ClassFault where
  | badMagic
  | layout (fault : LayoutFault)
  /-- No entry has this index. -/
  | badIndex (index : UInt16)
  | undecodable (index : UInt16)
  | mismatch (index : UInt16) (wanted : Wanted) (found : PoolEntry)
  | descriptor (fault : DescriptorFault) (text : List Char)
  /-- A constant of a field that is no constant. -/
  | unsupportedConstant (found : PoolEntry)
  /-- A value of an annotation that is not of the type that its tag says. -/
  | elementMismatch (tag : UInt8) (found : PoolEntry)
  | noModuleAttribute
  deriving DecidableEq, Repr

/-- The fault in words. -/
def ClassFault.message : ClassFault → String
  | .badMagic => "bad magic number"
  | .layout fault => fault.message
  | .badIndex index => "bad constant pool index " ++ toString index.toNat
  | .undecodable index => "constant " ++ toString index.toNat ++ " is not valid modified UTF-8"
  | .mismatch index wanted found =>
    "constant " ++ toString index.toNat ++ " is not " ++ wanted.message ++ ": " ++ found.shown
  | .descriptor fault text => fault.message text
  | .unsupportedConstant found => "unsupported constant value " ++ found.shown
  | .elementMismatch tag found =>
    "element tag '" ++ (Char.ofNat tag.toNat).toString ++ "' does not match constant " ++ found.shown
  | .noModuleAttribute => "module-info without a Module attribute"

/-- A value that a descriptor or a signature has to yield. -/
def liftDescriptor {α : Type} (read : List Char → Except DescriptorFault α) (text : List Char) :
    Except ClassFault α :=
  (read text).mapError (.descriptor · text)

/-- The value that a decoder finds at the front of the body of an attribute. -/
def Attribute.read {α : Type} (a : Attribute) (decoder : Decoder α) : Except ClassFault α :=
  match decoder a.body with
  | .ok (value, _) => .ok value
  | .error fault => .error (.layout fault)

namespace Pool

/-- The entry of an index. -/
def entry (pool : Pool) (index : UInt16) : Except ClassFault PoolEntry :=
  match index.toNat with
  | 0 => .error (.badIndex index)
  | place + 1 =>
    match pool[place]? with
    | some (some entry) => .ok entry
    | _ => .error (.badIndex index)

/-- The text of an index. -/
def text (pool : Pool) (index : UInt16) : Except ClassFault (List Char) := do
  match ← entry pool index with
  | .text bytes =>
    match decodeModifiedUtf8? bytes with
    | some cs => return cs
    | none => throw (.undecodable index)
  | found => throw (.mismatch index .string found)

/-- The dotted name of the class of an index. -/
def className (pool : Pool) (index : UInt16) : Except ClassFault (List Char) := do
  match ← entry pool index with
  | .classRef name => return dotted (← text pool name)
  | found => throw (.mismatch index .classRef found)

/-- The name of the module of an index. -/
def moduleName (pool : Pool) (index : UInt16) : Except ClassFault (List Char) := do
  match ← entry pool index with
  | .moduleRef name => text pool name
  | found => throw (.mismatch index .moduleRef found)

/-- The dotted name of the package of an index. -/
def packageName (pool : Pool) (index : UInt16) : Except ClassFault (List Char) := do
  match ← entry pool index with
  | .packageRef name => return dotted (← text pool name)
  | found => throw (.mismatch index .packageRef found)

/-- The first attribute of this name. The names before it have to be texts. -/
def attribute? (pool : Pool) (name : String) : List Attribute → Except ClassFault (Option Attribute)
  | [] => .ok none
  | a :: more => do
    if (← text pool a.name) = name.toList then return some a else attribute? pool name more

/-- What a decoder finds in the first attribute of this name. -/
def attributeValue? {α : Type} (pool : Pool) (name : String) (decoder : Decoder α)
    (attributes : List Attribute) : Except ClassFault (Option α) := do
  match ← attribute? pool name attributes with
  | none => return none
  | some a => return some (← a.read decoder)

/-- The text that the first attribute of this name refers to. -/
def attributeText? (pool : Pool) (name : String) (attributes : List Attribute) :
    Except ClassFault (Option (List Char)) := do
  match ← attributeValue? pool name u16 attributes with
  | none => return none
  | some index => return some (← text pool index)

end Pool

end ApiSurface.ClassFile
