import ApiSurface.Annotated.Basic
import ApiSurface.Text.Brackets
import ApiSurface.Text.Quoted

/-!
Annotations read from text. Each function takes what it needs from the front of a text and hands on the
rest. Spaces are allowed wherever one part ends and another begins.
-/

namespace ApiSurface

open ApiSurface.Text

/-- Why a text does not begin with an annotation. -/
inductive UseFault where
  | bracket (fault : BracketFault)
  | escape (fault : Literal.EscapeFault)
  /-- A word that has to be there is not. -/
  | missing (what : String)
  /-- A word that is no number of the right size. -/
  | badNumber (what : String) (word : List Char)
  | noUse
  | noElements
  | badName (name : List Char)
  | unterminated
  | noElementName
  | noEquals (type : List Char)
  | badElementName (name : List Char)
  | elementsNotSeparated
  | noValue
  | valuesNotSeparated
  | unterminatedString
  | unterminatedCharacter
  | emptyValue
  | trailing
  deriving DecidableEq, Repr

/-- The fault in words. -/
def UseFault.message : UseFault → String
  | .bracket fault => fault.message
  | .escape fault => fault.message
  | .missing what => "missing " ++ what
  | .badNumber what word => "bad " ++ what ++ " " ++ quoted (String.ofList word)
  | .noUse => "expected annotation"
  | .noElements => "missing '(' after annotation name"
  | .badName name => "bad annotation name " ++ quoted (String.ofList name)
  | .unterminated => "unterminated annotation"
  | .noElementName => "missing annotation member name"
  | .noEquals type => "missing '=' after member of type " ++ String.ofList type
  | .badElementName name => "bad annotation member name " ++ quoted (String.ofList name)
  | .elementsNotSeparated => "expected ',' or ')' after annotation member"
  | .noValue => "missing annotation value"
  | .valuesNotSeparated => "expected ',' or ']' in array value"
  | .unterminatedString => "unterminated string value"
  | .unterminatedCharacter => "unterminated char value"
  | .emptyValue => "empty annotation value"
  | .trailing => "trailing text after annotation"

namespace Annotated

/-- A fault of the bracket scanner as a fault of the annotation. -/
def liftBrackets {α : Type} : Except BracketFault α → Except UseFault α
  | .ok a => .ok a
  | .error fault => .error (.bracket fault)

/-! ### Words and numbers -/

/-- Takes a word: spaces, then all up to the next space. -/
def word (what : String) (cs : List Char) : Except UseFault (List Char × List Char) :=
  let (w, rest) := cutBefore (· == ' ') (dropSpaces cs)
  if w.isEmpty then .error (.missing what) else .ok (w, rest)

/-- Takes a number that is at most `bound`. -/
def number (bound : Nat) (what : String) (cs : List Char) : Except UseFault (Nat × List Char) :=
  match word what cs with
  | .error fault => .error fault
  | .ok (w, rest) =>
    match readDecimal? bound w with
    | some n => .ok (n, rest)
    | none => .error (.badNumber what w)

/-- Takes an index or a dash. -/
def index (what : String) (cs : List Char) : Except UseFault (Option UInt16 × List Char) :=
  match word what cs with
  | .error fault => .error fault
  | .ok (w, rest) =>
    if w = ['-'] then .ok (none, rest)
    else
      match readDecimal? 0xFFFF w with
      | some n => .ok (some (UInt16.ofNat n), rest)
      | none => .error (.badNumber what w)

/-- Takes the place of a type annotation. -/
def place (cs : List Char) : Except UseFault (TypePlace × List Char) := do
  let (targetType, cs) ← number 0xFF "type annotation target type" cs
  let (typeIndex, cs) ← index "type index" cs
  let (boundIndex, cs) ← index "bound index" cs
  let (parameterIndex, cs) ← index "parameter index" cs
  let (path, cs) ← word "type path" cs
  let path := if path = ['-'] then "" else String.ofList path
  return (⟨UInt8.ofNat targetType, typeIndex, boundIndex, parameterIndex, path⟩, cs)

/-- Takes the target and, for a type annotation, the place. -/
def target (cs : List Char) : Except UseFault ((UInt32 × Option TypePlace) × List Char) :=
  match afterLead? placedUseLead cs with
  | some cs => do
    let (target, cs) ← number 0xFFFFFFFF "annotation target" (' ' :: cs)
    let (place, cs) ← place cs
    return ((UInt32.ofNat target, some place), cs)
  | none =>
    match afterLead? useLead cs with
    | some cs => do
      let (target, cs) ← number 0xFFFFFFFF "annotation target" (' ' :: cs)
      return ((UInt32.ofNat target, none), cs)
    | none => .error .noUse

/-- Takes the name of the annotation and the parenthesis after it. -/
def name (cs : List Char) : Except UseFault (List Char × List Char) :=
  match cutAt? ['('] (dropSpaces cs) with
  | none => .error .noElements
  | some (name, rest) =>
    let name := trim name
    if name.isEmpty ∨ ' ' ∈ name then .error (.badName name) else .ok (name, rest)

/-! ### Elements -/

/-- What the type of an element that holds a class begins with. -/
def classTypeLead : List Char := "java.lang.Class".toList

/-- Takes pairs of square brackets. -/
def dimensions : List Char → List Char × List Char
  | '[' :: ']' :: cs =>
    let (more, rest) := dimensions cs
    ('[' :: ']' :: more, rest)
  | cs => ([], cs)

/-- Takes the type of an element. The type arguments of a class may hold spaces. -/
def elementType (cs : List Char) : Except UseFault (List Char × List Char) :=
  match afterLead? (classTypeLead ++ ['<']) cs with
  | some cs =>
    match throughClose '<' cs with
    | .error fault => .error (.bracket fault)
    | .ok (arguments, cs) =>
      let (more, rest) := dimensions cs
      .ok (classTypeLead ++ '<' :: arguments ++ more, rest)
  | none =>
    match cutAt? [' '] cs with
    | none => .error .noElementName
    | some (type, rest) => .ok (type, ' ' :: rest)

/-- Takes the name of an element and the equals sign after it. -/
def elementName (type cs : List Char) : Except UseFault (List Char × List Char) :=
  match cutAt? ['='] cs with
  | none => .error (.noEquals type)
  | some (name, rest) =>
    let name := trim name
    if name.isEmpty ∨ ' ' ∈ name then .error (.badElementName name) else .ok (name, rest)

/-- Takes a value that is no string, array or annotation: all up to where the value has to end. -/
def literalValue (cs : List Char) : Except UseFault (ElementValue × List Char) :=
  match scanTo [',', ')', ']'] cs with
  | .error fault => .error (.bracket fault)
  | .ok (text, rest) =>
    let text := trimEnd text
    if text.isEmpty then .error .emptyValue else .ok (.literal (String.ofList text), rest)

/-- Takes the rest of a string. -/
def stringValue (cs : List Char) : Except UseFault (ElementValue × List Char) :=
  match throughQuote? '"' cs with
  | none => .error .unterminatedString
  | some (inside, rest) =>
    match Literal.unescape inside with
    | .error fault => .error (.escape fault)
    | .ok text => .ok (.string (String.ofList text), rest)

/-- Takes the rest of a character, which stays as it is written. -/
def characterValue (cs : List Char) : Except UseFault (ElementValue × List Char) :=
  match throughQuote? '\'' cs with
  | none => .error .unterminatedCharacter
  | some (inside, rest) => .ok (.literal (String.ofList ('\'' :: inside ++ ['\''])), rest)

mutual

/-- Takes an annotation. The first argument of this and the next functions bounds the depth of calls. -/
def readUse : Nat → List Char → Except UseFault (AnnotationUse × List Char)
  | 0, _ => .error .unterminated
  | depth + 1, cs => do
    let ((target, place), cs) ← target cs
    let (name, cs) ← name cs
    let (elements, cs) ← readElements depth cs
    return (⟨target, String.ofList name, elements, place⟩, cs)

/-- Takes elements and the parenthesis that closes them. -/
def readElements : Nat → List Char → Except UseFault (List AnnotationElement × List Char)
  | 0, _ => .error .unterminated
  | depth + 1, cs =>
    match dropSpaces cs with
    | [] => .error .unterminated
    | c :: rest =>
      if c = ')' then .ok ([], rest)
      else do
        let (type, cs) ← elementType (c :: rest)
        let (name, cs) ← elementName type cs
        let (value, cs) ← readValue depth cs
        let element := ⟨String.ofList type, String.ofList name, value⟩
        match dropSpaces cs with
        | ',' :: cs => do
          let (more, cs) ← readElements depth cs
          return (element :: more, cs)
        | ')' :: cs => return ([element], cs)
        | _ => .error .elementsNotSeparated

/-- Takes a value. -/
def readValue : Nat → List Char → Except UseFault (ElementValue × List Char)
  | 0, _ => .error .noValue
  | depth + 1, cs =>
    match dropSpaces cs with
    | [] => .error .noValue
    | c :: rest =>
      if c = '[' then
        match dropSpaces rest with
        | ']' :: cs => .ok (.array [], cs)
        | cs => do
          let (values, cs) ← readValues depth cs
          return (.array values, cs)
      else if c = '"' then stringValue rest
      else if c = '\'' then characterValue rest
      else if beginsUse (c :: rest) then do
        let (use, cs) ← readUse depth (c :: rest)
        return (.nested use, cs)
      else literalValue (c :: rest)

/-- Takes values, at least one, and the bracket that closes them. -/
def readValues : Nat → List Char → Except UseFault (List ElementValue × List Char)
  | 0, _ => .error .valuesNotSeparated
  | depth + 1, cs => do
    let (value, cs) ← readValue depth cs
    match dropSpaces cs with
    | ',' :: cs => do
      let (more, cs) ← readValues depth cs
      return (value :: more, cs)
    | ']' :: cs => return ([value], cs)
    | _ => .error .valuesNotSeparated

end

/-- Takes an annotation from the front of a text. Two nested calls use up a character at least. -/
def takeUse (cs : List Char) : Except UseFault (AnnotationUse × List Char) :=
  readUse (2 * cs.length + 4) cs

/-- The annotation of a whole line. -/
def ofLine (cs : List Char) : Except UseFault AnnotationUse :=
  match takeUse cs with
  | .error fault => .error fault
  | .ok (use, rest) => if allBlank rest then .ok use else .error .trailing

end Annotated

end ApiSurface
