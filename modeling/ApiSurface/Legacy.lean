import ApiSurface.JavaType.Basic
import ApiSurface.Line.Kind
import ApiSurface.Line.Token

/-!
Spellings of the oldest formats. A rule turns a line of an old file into the line of today and back: the
reader decodes before it looks at a line, the writer encodes what it has printed. A line is cut into
tokens at single spaces, so that runs of spaces survive as empty tokens and only the tokens meant change.
-/

namespace ApiSurface

open ApiSurface.Text

/-- A way in which old formats spell something differently. -/
inductive LegacyRule where
  /-- The line `SUPR null` says that there is no superclass. -/
  | nullSuper
  /-- Array types are descriptors: `[I`, `[Ljava.lang.String;`. -/
  | vmArrays
  /-- Constructors are called `<init>`. -/
  | initConstructors
  /-- Constants are written `<constant> <value="...">`. -/
  | encodedConstants
  deriving DecidableEq, Repr

namespace Legacy

/-- The line that says that there is no superclass. -/
def nullSuperLine : String := "SUPR null"

/-- The name of all constructors. -/
def initName : List Char := "<init>".toList

/-- What comes between a field and its constant. -/
def constantMark : List Char := " <constant> <value=\"".toList

/-- What comes after a constant. -/
def constantEnd : List Char := "\">".toList

/-- The brackets that group tokens. A square bracket opens a descriptor and is never closed. -/
def legacyBrackets : List Char := ['(', '<']

/-! ### Array types -/

/-- The source form of the type behind the brackets of a descriptor. -/
def elementOfDescriptor? (element : List Char) : Option (List Char) :=
  match (afterLead? ['L'] element).bind (beforeTail? [';']) with
  | some name => some name
  | none =>
    match element with
    | [c] => (Primitive.ofLetter? c).map Primitive.name
    | _ => none

/-- An array descriptor as a source type; any other text stays as it is. -/
def arrayToSource (type : List Char) : List Char :=
  let brackets := type.takeWhile (· == '[')
  if brackets.isEmpty then type
  else
    match elementOfDescriptor? (type.dropWhile (· == '[')) with
    | some element => element ++ brackets.flatMap fun _ => ['[', ']']
    | none => type

/-- A source type without the pairs of brackets at its end, given in reverse, and their number. -/
def dropDimensions : List Char → List Char × Nat
  | ']' :: '[' :: cs =>
    let (base, n) := dropDimensions cs
    (base, n + 1)
  | cs => (cs, 0)

/-- The descriptor of a source type that is no array. -/
def elementToDescriptor (element : List Char) : List Char :=
  match (Primitive.ofName? element).filter (· ≠ .void) with
  | some p => [p.letter]
  | none => 'L' :: element ++ [';']

/-- An array type as a descriptor; any other type stays as it is. -/
def arrayToDescriptor (type : List Char) : List Char :=
  let (base, n) := dropDimensions type.reverse
  if n = 0 then type else List.replicate n '[' ++ elementToDescriptor base.reverse

/-! ### Tokens -/

/-- The line cut at spaces; between two neighbouring spaces there is an empty token. -/
def cutTokens (line : List Char) : Except Malformed (List (List Char)) :=
  Line.liftBrackets line (segments legacyBrackets ' ' line)

/-- The line with these tokens. -/
def joinSpaced (tokens : List (List Char)) : List Char := join [' '] tokens

/-- The tokens that are not empty. -/
def filled (tokens : List (List Char)) : List (List Char) := tokens.filter (!·.isEmpty)

/-- Changes the token at this place among those that are not empty. -/
def changeToken (change : List Char → Except Malformed (List Char)) :
    Nat → List (List Char) → Except Malformed (List (List Char))
  | _, [] => .ok []
  | place, t :: more =>
    if t.isEmpty then (changeToken change place more).map (t :: ·)
    else
      match place with
      | 0 => (change t).map (· :: more)
      | place + 1 => (changeToken change place more).map (t :: ·)

/-- The place of the first token after the tag that is no modifier. -/
def placeAfterModifiers (tokens : List (List Char)) : Nat :=
  match tokens with
  | [] => 0
  | _ :: more =>
    1 + (more.takeWhile fun t => (Modifier.ofKeyword? (String.ofList t)).isSome).length

/-- Whether a token lists type parameters. -/
def listsParameters (t : List Char) : Bool := ['<'].isPrefixOf t && !t.contains '('

/-- Changes every argument of a call. -/
def changeArguments (line : List Char) (change : List Char → List Char) (t : List Char) :
    Except Malformed (List Char) :=
  match cutAt? ['('] t with
  | none => Line.fail (.missing "argument list") line
  | some (name, rest) =>
    (Line.liftBrackets line (items legacyBrackets ((beforeTail? [')'] rest).getD rest))).map
      fun arguments => name ++ '(' :: join [','] (arguments.map change) ++ [')']

/-- Changes the types on a line of a field, a method or a constructor. -/
def changeTypes (change : List Char → List Char) (line : List Char) :
    Except Malformed (List Char) :=
  let here (t : List Char) : Except Malformed (List Char) := .ok (change t)
  let call := changeArguments line change
  match MemberKind.ofTag? (String.ofList (firstWord line)) with
  | some .field | some .method | some .constructor => do
    let tokens ← cutTokens line
    let first := placeAfterModifiers (filled tokens)
    let place := if ((filled tokens)[first]?).any listsParameters then first + 1 else first
    let tokens ← match MemberKind.ofTag? (String.ofList (firstWord line)) with
      | some .field => changeToken here place tokens
      | some .method => do
        let tokens ← changeToken call (place + 1) tokens
        changeToken here place tokens
      | _ => changeToken call place tokens
    return joinSpaced tokens
  | _ => .ok line

/-! ### Constructors -/

/-- Whether the line is about a constructor. -/
def isConstructorLine (line : List Char) : Bool := "CONS ".toList.isPrefixOf line

/-- Gives the constructor of a line another name, if it has this one. -/
def renameConstructor (old new line : List Char) : Except Malformed (List Char) :=
  if !isConstructorLine line then .ok line
  else do
    let tokens ← cutTokens line
    let place := ((filled tokens).takeWhile (!·.contains '(')).length
    if (filled tokens).length ≤ place then Line.fail (.missing "argument list") line
    else
      let tokens ← changeToken (fun t =>
        match afterLead? old t with
        | some ('(' :: rest) => .ok (new ++ '(' :: rest)
        | _ => .ok t) place tokens
      return joinSpaced tokens

/-! ### Constants -/

/-- Whether the line is about a field. -/
def isFieldLine (line : List Char) : Bool := "FLD ".toList.isPrefixOf line

/-- The type on a field line without its constant. -/
def fieldType (declaration : List Char) : Except Malformed (List Char) := do
  let tokens ← cutTokens declaration
  match (filled tokens)[placeAfterModifiers (filled tokens)]? with
  | some t => return t
  | none => Line.fail (.missing "field type") declaration

/-- A field line with its constant in the spelling of today. -/
def decodeField (line : List Char) : Except Malformed (List Char) :=
  if !isFieldLine line then .ok line
  else
    match cutAt? constantMark line with
    | none => .ok line
    | some (declaration, rest) =>
      match beforeTail? constantEnd rest with
      | none => Line.fail .valueNotClosed line
      | some old => do
        let type ← fieldType declaration
        match Literal.decodeConstant type old with
        | .error fault => Line.fail (.constant fault) line
        | .ok modern => return declaration ++ " = ".toList ++ modern

/-- A field line with its constant in the old spelling. -/
def encodeField (line : List Char) : Except Malformed (List Char) :=
  if !isFieldLine line then .ok line
  else
    match cutAt? " = ".toList line with
    | none => .ok line
    | some (declaration, modern) => do
      let type ← fieldType declaration
      return declaration ++ constantMark ++ Literal.encodeConstant type modern ++ constantEnd

end Legacy

namespace LegacyRule

open ApiSurface.Legacy

/-- The line of today for a line in a class of this name, unless it says nothing today. -/
def decode (rule : LegacyRule) (className : String) (line : List Char) :
    Except Malformed (Option (List Char)) :=
  match rule with
  | .nullSuper => .ok (if line = nullSuperLine.toList then none else some line)
  | .vmArrays => (changeTypes arrayToSource line).map some
  | .initConstructors => (renameConstructor initName (simpleName className).toList line).map some
  | .encodedConstants => (decodeField line).map some

/-- The old line for a line of today in a class of this name. -/
def encode (rule : LegacyRule) (className : String) (line : List Char) :
    Except Malformed (List Char) :=
  match rule with
  | .nullSuper => .ok line
  | .vmArrays => changeTypes arrayToDescriptor line
  | .initConstructors => renameConstructor (simpleName className).toList initName line
  | .encodedConstants => encodeField line

/-- Decodes a line by all rules in turn. -/
def decodeAll (className : String) : List LegacyRule → List Char → Except Malformed (Option (List Char))
  | [], line => .ok (some line)
  | rule :: more, line =>
    match rule.decode className line with
    | .error fault => .error fault
    | .ok none => .ok none
    | .ok (some line) => decodeAll className more line

/-- Encodes a line by all rules, the last one first. -/
def encodeAll (className : String) : List LegacyRule → List Char → Except Malformed (List Char)
  | [], line => .ok line
  | rule :: more, line =>
    match encodeAll className more line with
    | .error fault => .error fault
    | .ok line => rule.encode className line

end LegacyRule

end ApiSurface
