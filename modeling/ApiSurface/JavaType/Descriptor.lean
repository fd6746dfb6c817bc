import ApiSurface.JavaType.Basic
import ApiSurface.Text.Quoted

/-!
Types in the form that compiled classes hold: descriptors such as `[Ljava/lang/String;` and signatures
such as `Ljava/util/Map<TK;+Ljava/util/List<TV;>;>;`. A reader takes what it needs from the front of the
text and hands on the rest; a fault tells how many bytes were left.
-/

namespace ApiSurface

open ApiSurface.Text

/-- What is wrong with a descriptor. -/
inductive DescriptorProblem where
  | expected (c : Char)
  | trailing
  | identifierExpected
  | typeExpected
  | classUnterminated
  | argumentsUnterminated
  | parametersUnterminated
  deriving DecidableEq, Repr

/-- The problem in words. -/
def DescriptorProblem.message : DescriptorProblem → String
  | .expected c => "expected '" ++ c.toString ++ "'"
  | .trailing => "trailing characters"
  | .identifierExpected => "expected an identifier"
  | .typeExpected => "expected a type"
  | .classUnterminated => "unterminated class type"
  | .argumentsUnterminated => "unterminated type arguments"
  | .parametersUnterminated => "unterminated type parameters"

/-- A problem at a place of a descriptor. -/
structure DescriptorFault where
  problem : DescriptorProblem
  /-- How many bytes come after the place. -/
  left : Nat
  deriving DecidableEq, Repr

/-- The fault in words, as part of the whole descriptor. -/
def DescriptorFault.message (fault : DescriptorFault) (text : List Char) : String :=
  fault.problem.message ++ " at offset " ++ toString (byteLength text - fault.left) ++ " in " ++
    quoted (String.ofList text)

namespace Descriptor

/-- A fault right here. -/
def fail {α : Type} (problem : DescriptorProblem) (cs : List Char) : Except DescriptorFault α :=
  .error ⟨problem, byteLength cs⟩

/-- A fault after the next byte, or here at the end. -/
def failNext {α : Type} (problem : DescriptorProblem) (cs : List Char) : Except DescriptorFault α :=
  .error ⟨problem, byteLength cs - 1⟩

/-- Takes one character that has to come next. -/
def expect (c : Char) (cs : List Char) : Except DescriptorFault (List Char) :=
  match cs with
  | d :: rest => if d = c then .ok rest else failNext (.expected c) cs
  | [] => failNext (.expected c) []

/-- Takes characters up to one of the stops; there has to be one at least. -/
def identifier (stops cs : List Char) : Except DescriptorFault (List Char × List Char) :=
  let (name, rest) := cutBefore (· ∈ stops) cs
  if name.isEmpty then fail .identifierExpected cs else .ok (name, rest)

/-- The characters that end a class name. -/
def nameStops : List Char := ['<', '.', ';']

mutual

/-- Takes a type. The first argument of this and the next functions bounds the depth of calls. -/
def readType : Nat → List Char → Except DescriptorFault (JavaType × List Char)
  | 0, cs => fail .typeExpected cs
  | _ + 1, [] => fail .typeExpected []
  | depth + 1, c :: cs =>
    match Primitive.ofLetter? c with
    | some p => .ok (.primitive p, cs)
    | none => readReference depth (c :: cs)

/-- Takes a type that is not primitive. -/
def readReference : Nat → List Char → Except DescriptorFault (JavaType × List Char)
  | 0, cs => fail .typeExpected cs
  | _ + 1, [] => fail .typeExpected []
  | depth + 1, c :: cs =>
    if c = 'L' then do
      let (name, cs) ← identifier nameStops cs
      let (arguments, cs) ← readArguments? depth cs
      let (nested, cs) ← readNested depth cs
      return (.classType name arguments nested, cs)
    else if c = 'T' then do
      let (name, cs) ← identifier [';'] cs
      let cs ← expect ';' cs
      return (.variable name, cs)
    else if c = '[' then do
      let (element, cs) ← readType depth cs
      return (.array element, cs)
    else fail .typeExpected (c :: cs)

/-- Takes type arguments, if an angle bracket comes next. -/
def readArguments? : Nat → List Char → Except DescriptorFault (Option (List TypeArgument) × List Char)
  | 0, cs => fail .argumentsUnterminated cs
  | _ + 1, [] => .ok (none, [])
  | depth + 1, c :: cs =>
    if c = '<' then do
      let (arguments, cs) ← readArguments depth cs
      return (some arguments, cs)
    else .ok (none, c :: cs)

/-- Takes type arguments and the bracket that closes them. -/
def readArguments : Nat → List Char → Except DescriptorFault (List TypeArgument × List Char)
  | 0, cs => fail .argumentsUnterminated cs
  | _ + 1, [] => fail .argumentsUnterminated []
  | depth + 1, c :: cs =>
    if c = '>' then .ok ([], cs)
    else do
      let (argument, cs) ← readArgument depth c cs
      let (more, cs) ← readArguments depth cs
      return (argument :: more, cs)

/-- Takes one type argument that begins with this character. -/
def readArgument : Nat → Char → List Char → Except DescriptorFault (TypeArgument × List Char)
  | 0, c, cs => fail .typeExpected (c :: cs)
  | depth + 1, c, cs =>
    if c = '*' then .ok (.any, cs)
    else if c = '+' then do
      let (bound, cs) ← readReference depth cs
      return (.extending bound, cs)
    else if c = '-' then do
      let (bound, cs) ← readReference depth cs
      return (.superOf bound, cs)
    else do
      let (type, cs) ← readReference depth (c :: cs)
      return (.exactly type, cs)

/-- Takes nested classes and the semicolon that ends a class type. -/
def readNested : Nat → List Char → Except DescriptorFault (List NestedType × List Char)
  | 0, cs => failNext .classUnterminated cs
  | _ + 1, [] => failNext .classUnterminated []
  | depth + 1, c :: cs =>
    if c = ';' then .ok ([], cs)
    else if c = '.' then do
      let (name, cs) ← identifier nameStops cs
      let (arguments, cs) ← readArguments? depth cs
      let (more, cs) ← readNested depth cs
      return (.mk name arguments :: more, cs)
    else failNext .classUnterminated (c :: cs)

end

/-- A depth that no text of this length can use up: two calls take at least one character. -/
def depthFor (cs : List Char) : Nat := 2 * cs.length + 4

/-- Takes a type. -/
def type (cs : List Char) : Except DescriptorFault (JavaType × List Char) := readType (depthFor cs) cs

/-- Takes a type that is not primitive. -/
def reference (cs : List Char) : Except DescriptorFault (JavaType × List Char) :=
  readReference (depthFor cs) cs

/-- Takes `count` or fewer types that are not primitive, as long as `more` is found in front of each. -/
def references (more : Char) : Nat → List Char → Except DescriptorFault (List JavaType × List Char)
  | 0, cs => .ok ([], cs)
  | _ + 1, [] => .ok ([], [])
  | count + 1, c :: cs =>
    if c = more then do
      let (t, cs) ← reference cs
      let (ts, cs) ← references more count cs
      return (t :: ts, cs)
    else .ok ([], c :: cs)

/-- Takes the bounds of a type parameter: a class bound, which may be missing, and interface bounds. -/
def bounds (cs : List Char) : Except DescriptorFault (List JavaType × List Char) :=
  if cs.head? = some ':' ∨ cs.head? = some '>' then references ':' cs.length cs
  else do
    let (first, cs) ← reference cs
    let (more, cs) ← references ':' cs.length cs
    return (first :: more, cs)

/-- Takes at most `count` type parameters and the bracket that closes them. -/
def readParameters : Nat → List Char → Except DescriptorFault (List TypeParameter × List Char)
  | _, [] => fail .parametersUnterminated []
  | 0, cs => fail .parametersUnterminated cs
  | count + 1, c :: cs =>
    if c = '>' then .ok ([], cs)
    else do
      let (name, cs) ← identifier [':'] (c :: cs)
      let cs ← expect ':' cs
      let (bs, cs) ← bounds cs
      let (more, cs) ← readParameters count cs
      return (⟨name, bs⟩ :: more, cs)

/-- Takes type parameters, if an angle bracket comes next. -/
def parameters? (cs : List Char) : Except DescriptorFault (Option (List TypeParameter) × List Char) :=
  match cs with
  | '<' :: cs => do
    let (ps, cs) ← readParameters (cs.length + 1) cs
    return (some ps, cs)
  | _ => .ok (none, cs)

/-- Takes at most `count` types up to a closing parenthesis. -/
def readTypes : Nat → List Char → Except DescriptorFault (List JavaType × List Char)
  | 0, cs => .ok ([], cs)
  | count + 1, cs =>
    if cs.head? = some ')' then .ok ([], cs)
    else do
      let (t, cs) ← type cs
      let (ts, cs) ← readTypes count cs
      return (t :: ts, cs)

/-- Takes at most `count` types that are not primitive, up to the end. -/
def readInterfaces : Nat → List Char → Except DescriptorFault (List JavaType)
  | _, [] => .ok []
  | 0, cs => fail .trailing cs
  | count + 1, cs => do
    let (t, cs) ← reference cs
    let ts ← readInterfaces count cs
    return t :: ts

/-- Nothing may be left. -/
def finish (cs : List Char) : Except DescriptorFault Unit :=
  if cs.isEmpty then .ok () else fail .trailing cs

/-- The type that a descriptor or a signature of a field stands for. -/
def ofField (cs : List Char) : Except DescriptorFault JavaType := do
  let (t, rest) ← type cs
  finish rest
  return t

/-- What a descriptor or a signature of a method stands for. -/
def ofMethod (cs : List Char) : Except DescriptorFault MethodSignature := do
  let (parameters, cs) ← parameters? cs
  let cs ← expect '(' cs
  let (arguments, cs) ← readTypes (cs.length + 1) cs
  let cs ← expect ')' cs
  let (result, cs) ← type cs
  let (throws, cs) ← references '^' cs.length cs
  finish cs
  return ⟨parameters, arguments, result, throws⟩

/-- What the signature of a class stands for. -/
def ofClass (cs : List Char) : Except DescriptorFault ClassSignature := do
  let (parameters, cs) ← parameters? cs
  let (superclass, cs) ← reference cs
  let interfaces ← readInterfaces cs.length cs
  return ⟨parameters, superclass, interfaces⟩

end Descriptor

end ApiSurface
