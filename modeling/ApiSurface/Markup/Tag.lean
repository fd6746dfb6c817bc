import ApiSurface.Text.Basic
import ApiSurface.Text.Numeral

/-!
Tags of a markup text: names, attributes and the escapes in attribute values. Five characters are written
as entities, all others stand for themselves; a reader knows the five entities and characters by number.
Main statement: an escaped value is read back (`unescapeValue_escapeValue`).
-/

namespace ApiSurface.Markup

open ApiSurface.Text

/-- Why a text is no markup. -/
inductive Fault where
  | unclosedTag
  | unclosedInstruction
  | unclosedComment
  | badDeclaration
  | unmatchedEnd
  | noEquals
  | noQuotes
  | unclosedValue
  | duplicateAttribute
  | unclosedEntity
  | unknownEntity
  | badCharacter
  deriving DecidableEq, Repr

/-- The fault in words. -/
def Fault.message : Fault → String
  | .unclosedTag => "a tag is not closed"
  | .unclosedInstruction => "an instruction is not closed"
  | .unclosedComment => "a comment or a section of text is not closed"
  | .badDeclaration => "unknown declaration"
  | .unmatchedEnd => "an end tag does not match its start tag"
  | .noEquals => "an attribute has no value"
  | .noQuotes => "an attribute value is not quoted"
  | .unclosedValue => "an attribute value is not closed"
  | .duplicateAttribute => "an attribute is repeated"
  | .unclosedEntity => "an entity is not closed"
  | .unknownEntity => "unknown entity"
  | .badCharacter => "a character reference is no character"

/-- The white space between the parts of a tag. -/
def isSpace (c : Char) : Bool := c == ' ' || c == '\t' || c == '\n' || c == '\r'

/-! ### Values -/

/-- How a character is written in an attribute value. -/
def escapeValueChar (c : Char) : List Char :=
  if c = '<' then "&lt;".toList
  else if c = '>' then "&gt;".toList
  else if c = '&' then "&amp;".toList
  else if c = '\'' then "&apos;".toList
  else if c = '"' then "&quot;".toList
  else [c]

/-- How a text is written in an attribute value. -/
def escapeValue (cs : List Char) : List Char := cs.flatMap escapeValueChar

/-- The character of an entity. -/
def entity? (name : List Char) : Option Char :=
  if name = ['l', 't'] then some '<'
  else if name = ['g', 't'] then some '>'
  else if name = ['a', 'm', 'p'] then some '&'
  else if name = ['a', 'p', 'o', 's'] then some '\''
  else if name = ['q', 'u', 'o', 't'] then some '"'
  else none

/-- The character with this number, which is not zero and has no sign. -/
def numbered? (base : Nat) (digits : List Char) : Option Char :=
  if digits.head? = some '+' then none
  else
    match readNatural? base digits with
    | some n => if 0 < n ∧ n.isValidChar then some (Char.ofNat n) else none
    | none => none

/-- The character that a name between `&` and `;` stands for. -/
def reference (name : List Char) : Except Fault Char :=
  match name with
  | '#' :: 'x' :: digits =>
    match numbered? 16 digits with
    | some c => .ok c
    | none => .error .badCharacter
  | '#' :: digits =>
    match numbered? 10 digits with
    | some c => .ok c
    | none => .error .badCharacter
  | _ =>
    match entity? name with
    | some c => .ok c
    | none => .error .unknownEntity

/-- The text that a value stands for, given the name of a reference read so far, if one is open. -/
def unescapeFrom : Option (List Char) → List Char → Except Fault (List Char)
  | none, [] => .ok []
  | some _, [] => .error .unclosedEntity
  | none, c :: cs =>
    if c = '&' then unescapeFrom (some []) cs else (unescapeFrom none cs).map (c :: ·)
  | some name, c :: cs =>
    if c = '&' then .error .unclosedEntity
    else if c = ';' then
      match reference name with
      | .error fault => .error fault
      | .ok d => (unescapeFrom none cs).map (d :: ·)
    else unescapeFrom (some (name ++ [c])) cs

/-- The text that an attribute value stands for. -/
def unescapeValue (cs : List Char) : Except Fault (List Char) := unescapeFrom none cs

/-! ### Attributes -/

/-- An attribute with the text that its value stands for. -/
structure Attribute where
  name : List Char
  value : List Char
  deriving DecidableEq, Repr

/-- Takes one attribute from a text that does not begin with white space. The name has at least one
character, whatever it is; `seen` are the names of the attributes before. -/
def takeAttribute (seen : List (List Char)) (c : Char) (cs : List Char) :
    Except Fault (Attribute × List Char) :=
  let (more, rest) := cutBefore (fun d => d == '=' || isSpace d) cs
  let name := c :: more
  match rest.dropWhile isSpace with
  | '=' :: rest =>
    if name ∈ seen then .error .duplicateAttribute
    else
      match rest.dropWhile isSpace with
      | [] => .error .unclosedValue
      | q :: rest =>
        if q = '"' ∨ q = '\'' then
          match cutAt? [q] rest with
          | none => .error .unclosedValue
          | some (raw, rest) => (unescapeValue raw).map fun value => (⟨name, value⟩, rest)
        else .error .noQuotes
  | _ => .error .noEquals

/-- The attributes in what follows the name of a tag; `limit` bounds their number. -/
def attributesFrom : Nat → List (List Char) → List Char → Except Fault (List Attribute)
  | 0, _, _ => .ok []
  | limit + 1, seen, cs =>
    match cs.dropWhile isSpace with
    | [] => .ok []
    | c :: rest =>
      match takeAttribute seen c rest with
      | .error fault => .error fault
      | .ok (a, rest) => (attributesFrom limit (a.name :: seen) rest).map (a :: ·)

/-- The attributes in what follows the name of a tag. -/
def attributes (cs : List Char) : Except Fault (List Attribute) := attributesFrom (cs.length + 1) [] cs

/-! ### Writing -/

/-- A tag between angle brackets with its attributes; `close` stands before the second bracket. -/
def tag (name : String) (attributes : List (String × String)) (close : List Char) : List Char :=
  '<' :: name.toList ++
    attributes.flatMap (fun (key, value) =>
      ' ' :: key.toList ++ '=' :: '"' :: escapeValue value.toList ++ ['"']) ++
    close ++ ['>']

/-- A tag that opens an element. -/
def startTag (name : String) (attributes : List (String × String)) : List Char := tag name attributes []

/-- A tag that is an element by itself. -/
def emptyTag (name : String) (attributes : List (String × String)) : List Char :=
  tag name attributes ['/']

/-- A tag that closes an element. -/
def endTag (name : String) : List Char := '<' :: '/' :: name.toList ++ ['>']

/-! ### Laws -/

/-- An escaped character in front of a value is read back in front of its text. -/
theorem unescapeFrom_escapeValueChar (c : Char) (cs : List Char) :
    unescapeFrom none (escapeValueChar c ++ cs) = (unescapeFrom none cs).map (c :: ·) := by
  unfold escapeValueChar
  split
  · subst c; rfl
  split
  · subst c; rfl
  split
  · subst c; rfl
  split
  · subst c; rfl
  split
  · subst c; rfl
  · rename_i noAmp _ _
    simp only [List.cons_append, List.nil_append, unescapeFrom]
    rw [if_neg noAmp]

/-- An escaped value is read back. -/
theorem unescapeValue_escapeValue (cs : List Char) : unescapeValue (escapeValue cs) = .ok cs := by
  induction cs with
  | nil => rfl
  | cons c cs ih =>
    have split : escapeValue (c :: cs) = escapeValueChar c ++ escapeValue cs := by simp [escapeValue]
    rw [unescapeValue] at ih ⊢
    rw [split, unescapeFrom_escapeValueChar, ih]
    rfl

end ApiSurface.Markup
