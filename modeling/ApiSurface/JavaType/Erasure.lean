import ApiSurface.JavaType.Basic
import ApiSurface.Text.Brackets
import ApiSurface.Text.Letter

/-!
Erasure of types as text. What is between angle brackets goes, a variable number of arguments becomes an
array, and a type variable in scope becomes its first bound. Scopes nest: the parameters of a method hide
those of the class. Bounds that run in a circle end at the class of all objects.
-/

namespace ApiSurface

open ApiSurface.Text

/-- The text without what is between angle brackets, given how many are open. -/
def dropArguments : Nat → List Char → List Char
  | _, [] => []
  | depth, c :: cs =>
    if c = '<' then dropArguments (depth + 1) cs
    else if c = '>' ∧ 0 < depth then dropArguments (depth - 1) cs
    else if depth = 0 then c :: dropArguments depth cs
    else dropArguments depth cs

/-- The text with every `...` spelled as an array. -/
def spellArrays : List Char → List Char
  | '.' :: '.' :: '.' :: cs => '[' :: ']' :: spellArrays cs
  | c :: cs => c :: spellArrays cs
  | [] => []

/-- The text without type parameters and arguments; a variable number of arguments becomes an array. -/
def stripGenerics (cs : List Char) : List Char := spellArrays (dropArguments 0 cs)

/-- The characters of a qualified name. -/
def isNameChar (c : Char) : Bool := isLetterOrDigit c || c == '_' || c == '$' || c == '.'

/-- The type variables in scope, innermost first, and what each of them stands for. -/
structure Erasure where
  bindings : List (List Char × List Char)
  deriving DecidableEq, Repr

namespace Erasure

/-- The scope without variables. -/
def empty : Erasure := ⟨[]⟩

/-- One parameter of a list: the variable and its first bound. -/
def binding (parameter : List Char) : List Char × List Char :=
  match cutAt? " extends ".toList parameter with
  | some (name, bounds) => (trim name, trim ((pieces '&' (stripGenerics bounds)).headD []))
  | none => (trim parameter, objectName)

/-- The bindings of a list of type parameters between angle brackets; any other text has none. -/
def bindingsOf (parameters : List Char) : List (List Char × List Char) :=
  match (afterLead? ['<'] (trim parameters)).bind (beforeTail? ['>']) with
  | none => []
  | some list =>
    match items brackets list with
    | .ok parameters => parameters.map binding
    | .error _ => []

/-- A nested scope in which these type parameters are declared as well. -/
def nest (scope : Erasure) (parameters : Option (List Char)) : Erasure :=
  match parameters with
  | none => scope
  | some list => ⟨(bindingsOf list).reverse ++ scope.bindings⟩

/-- What the innermost declaration of a variable says. -/
def lookup? (scope : Erasure) (name : List Char) : Option (List Char) :=
  (scope.bindings.find? fun entry => entry.1 == name).map Prod.snd

/-- Follows bounds for so many steps; after more of them there is a circle. -/
def follow (scope : Erasure) : Nat → List Char → List Char
  | steps, name =>
    match scope.lookup? name with
    | none => name
    | some bound =>
      match steps with
      | 0 => objectName
      | steps + 1 => scope.follow steps bound

/-- What a type variable in scope stands for in the end. -/
def resolve? (scope : Erasure) (name : List Char) : Option (List Char) :=
  (scope.lookup? name).map fun _ => scope.follow scope.bindings.length name

/-- A name with a variable replaced; nothing stays nothing. -/
def replace (scope : Erasure) (name : List Char) : List Char :=
  if name.isEmpty then [] else (scope.resolve? name).getD name

/-- Replaces the variables of a text, given the part of a name read so far. -/
def replaceAll (scope : Erasure) : List Char → List Char → List Char
  | name, [] => scope.replace name
  | name, c :: cs =>
    if isNameChar c then scope.replaceAll (name ++ [c]) cs
    else scope.replace name ++ c :: scope.replaceAll [] cs

/-- The erased form of a type or a list of types. -/
def erase (scope : Erasure) (cs : List Char) : List Char :=
  if scope.bindings.isEmpty then stripGenerics cs else scope.replaceAll [] (stripGenerics cs)

end Erasure

end ApiSurface
