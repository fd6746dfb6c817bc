import ApiSurface.JavaType.Erasure
import ApiSurface.Line.Header

/-!
Member lines: the tag of the kind, the keywords of the modifiers, and what belongs to the kind. A constant
follows ` = ` and a default the word `default`; both go on to the end of the line. Without generics, types
are written in their erased form.
-/

namespace ApiSurface.Line

open ApiSurface.Text

/-! ### Reading -/

/-- What comes before the exceptions of a method or a constructor. -/
def throwsWord : List Char := "throws".toList

/-- What comes before the default of a method. -/
def defaultWord : List Char := "default".toList

/-- The name and the arguments of a token such as `name(arguments)`. -/
def splitCall (line t : List Char) : Except Malformed (List Char × List Char) :=
  match cutAt? ['('] t with
  | none => fail (.missing "argument list") line
  | some (name, rest) =>
    match beforeTail? [')'] rest with
    | none => fail .argumentsNotClosed line
    | some arguments =>
      if name.isEmpty then fail (.missing "member name") line else .ok (name, arguments)

/-- Takes type parameters, if the token `t` is a list of them, and then the token after it. -/
def typeParameters? (line : List Char) (what : String) (isList : List Char → Bool)
    (t cs : List Char) : Except Malformed (Option String × List Char × List Char) :=
  if isList t then
    (token line what cs).map fun (next, cs) => (some (String.ofList t), next, cs)
  else .ok (none, t, cs)

/-- Takes exceptions, if the word for them comes next. -/
def throws (line cs : List Char) : Except Malformed (List String × List Char) := do
  let (next, rest) ← token? line cs
  if next = some throwsWord then
    let (list, rest) ← token line "throws list" rest
    let types ← liftBrackets line (items brackets list)
    return (types.map String.ofList, rest)
  else return ([], cs)

/-- Nothing may be left. -/
def finish (line cs : List Char) : Except Malformed Unit := do
  let (next, _) ← token? line cs
  match next with
  | none => return ()
  | some t => fail (.unexpectedToken (String.ofList t)) line

/-- Takes the rest of a field line: type, name, and a constant if there is one. -/
def fieldRest (line : List Char) : Except Malformed (String × Detail) := do
  let (declaration, constant) := match cutAt? " = ".toList line with
    | some (before, after) => (before, some (String.ofList after))
    | none => (line, none)
  let (_, cs) ← token declaration MemberKind.field.tag declaration
  let (_, cs) ← modifiers declaration cs
  let (type, cs) ← token declaration "field type" cs
  let (name, cs) ← token declaration "field name" cs
  let (more, _) ← token? declaration cs
  if more.isSome then fail .afterFieldName line
  else return (String.ofList name, .field (String.ofList type) constant)

/-- Takes the default of a method, if the word for it comes next; nothing else may be left. -/
def default? (line cs : List Char) : Except Malformed (Option String) := do
  let (next, rest) ← token? line cs
  match next with
  | none => return none
  | some t =>
    if t = defaultWord then
      let value := trimEnd (dropSpaces rest)
      if value.isEmpty then fail (.missing "default value") line else return some (String.ofList value)
    else fail (.unexpectedToken (String.ofList t)) line

/-- Takes the rest of a method line. -/
def methodRest (line cs : List Char) : Except Malformed (String × Detail) := do
  let (t, cs) ← token line "return type" cs
  let (parameters, result, cs) ← typeParameters? line "return type" (['<'].isPrefixOf ·) t cs
  let (call, cs) ← token line "method name" cs
  let (name, arguments) ← splitCall line call
  let (exceptions, cs) ← throws line cs
  let default ← default? line cs
  return (String.ofList name,
    .method parameters (String.ofList result) (String.ofList arguments) exceptions default)

/-- Whether a token before the name of a constructor lists type parameters. -/
def listsParameters (t : List Char) : Bool := ['<'].isPrefixOf t && !"<init>".toList.isPrefixOf t

/-- Takes the rest of a constructor line. -/
def constructorRest (line cs : List Char) : Except Malformed (String × Detail) := do
  let (t, cs) ← token line "constructor name" cs
  let (parameters, call, cs) ← typeParameters? line "constructor name" listsParameters t cs
  let (name, arguments) ← splitCall line call
  let (exceptions, cs) ← throws line cs
  finish line cs
  return (String.ofList name, .constructor parameters (String.ofList arguments) exceptions)

/-- Takes the rest of a line that has one name only. -/
def nameRest (line : List Char) (what : String) (detail : Detail) (cs : List Char) :
    Except Malformed (String × Detail) := do
  let (name, cs) ← token line what cs
  finish line cs
  return (String.ofList name, detail)

/-- The member of a line of this kind in a class of this name. -/
def parseMember (kind : MemberKind) (className : String) (line : List Char) :
    Except Malformed Member := do
  let (_, cs) ← token line kind.tag line
  let (set, cs) ← modifiers line cs
  let (name, detail) ← match kind with
    | .superclass => nameRest line "superclass" .superclass cs
    | .superinterface => nameRest line "interface" (.superinterface true) cs
    | .nested =>
      (nameRest line "nested class name" .nested cs).map fun (simple, detail) =>
        (className ++ "$" ++ simple, detail)
    | .field => fieldRest line
    | .method => methodRest line cs
    | .constructor => constructorRest line cs
  return ⟨className, name, set, [], detail⟩

/-! ### Writing -/

/-- A type as the style wants it. -/
def styled (style : LineStyle) (scope : Erasure) (type : List Char) : List Char :=
  if style.generics then type else scope.erase type

/-- Type parameters, unless the style leaves them out. -/
def parametersToken (style : LineStyle) (parameters : Option String) : List Char :=
  if style.generics then (parameters.getD "").toList else []

/-- A name and arguments in parentheses. -/
def callToken (name arguments : List Char) : List Char := name ++ '(' :: arguments ++ [')']

/-- The exceptions of a method or a constructor, if there are any. -/
def throwsTokens (style : LineStyle) (scope : Erasure) (exceptions : List String) : List (List Char) :=
  if exceptions.isEmpty then []
  else [throwsWord ++ ' ' :: styled style scope (join [','] (exceptions.map String.toList))]

/-- What follows the modifiers on a member line. -/
def detailTokens (style : LineStyle) (scope : Erasure) (className : String) (m : Member) :
    List (List Char) :=
  let type := styled style scope
  match m.detail with
  | .superclass | .superinterface _ => [type m.name.toList]
  | .nested =>
    let lead := className.toList ++ ['$']
    [(afterLead? lead m.name.toList).getD m.name.toList]
  | .field fieldType constant =>
    [type fieldType.toList, m.name.toList] ++
      (if style.constants then (constant.map fun c => '=' :: ' ' :: c.toList).toList else [])
  | .method parameters result arguments exceptions default =>
    [parametersToken style parameters, type result.toList,
      callToken m.name.toList (type arguments.toList)] ++
      throwsTokens style scope exceptions ++
      (default.map fun value => defaultWord ++ ' ' :: value.toList).toList
  | .constructor parameters arguments exceptions =>
    [parametersToken style parameters, callToken m.name.toList (type arguments.toList)] ++
      throwsTokens style scope exceptions

/-- A member as it is written in a class of this name, whose type variables are in `scope`. -/
def formatMember (style : LineStyle) (scope : Erasure) (className : String) (m : Member) : List Char :=
  let inner := scope.nest (m.detail.typeParameters?.map String.toList)
  joinTokens ([m.kind.tag.toList] ++ keywordTokens m.modifiers ++ detailTokens style inner className m)

end ApiSurface.Line
