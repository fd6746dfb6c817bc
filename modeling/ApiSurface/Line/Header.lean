import ApiSurface.Line.Kind
import ApiSurface.Line.Token
import ApiSurface.Ordered.Set

/-!
The first line of a class block, and the lines that list the names of what is hidden.
-/

namespace ApiSurface

open ApiSurface.Text

/-- What a writer may put on a line. -/
structure LineStyle where
  constants : Bool
  generics : Bool
  deriving DecidableEq, Repr

/-- What the first line of a class block says. -/
structure ClassHeader where
  modifiers : Modifiers
  name : String
  typeParameters : Option String
  deriving DecidableEq, Repr

namespace Line

/-- The first line of a class block. The type parameters begin at the first angle bracket of the name. -/
def parseClassHeader (line : List Char) : Except Malformed ClassHeader := do
  let (_, cs) ← token line classTag line
  let (set, cs) ← modifiers line cs
  let (t, cs) ← token line "class name" cs
  let (more, _) ← token? line cs
  if more.isSome then fail .afterClassName line
  else
    let (name, parameters) := cutBefore (· == '<') t
    return ⟨set, String.ofList name,
      if parameters.isEmpty then none else some (String.ofList parameters)⟩

/-- A class header as it is written. -/
def formatClassHeader (style : LineStyle) (h : ClassHeader) : List Char :=
  let parameters := if style.generics then (h.typeParameters.getD "").toList else []
  joinTokens ([classTag.toList] ++ keywordTokens h.modifiers ++ [h.name.toList ++ parameters])

/-- The names on a line that lists what is hidden. -/
def parseHidden (line : List Char) : Ordered.Set String :=
  match cutAt? [' '] line with
  | none => ∅
  | some (_, body) =>
    .ofList (((pieces ',' body).map trim).filter (!·.isEmpty) |>.map String.ofList)

/-- A line that lists what is hidden. -/
def formatHidden (tag : String) (names : Ordered.Set String) : List Char :=
  tag.toList ++ ' ' :: join [','] (names.toList.map String.toList)

end Line

end ApiSurface
