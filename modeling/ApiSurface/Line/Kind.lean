import ApiSurface.Annotated.Basic
import ApiSurface.Member

/-!
What a line of a signature file is about, told from its beginning.
-/

namespace ApiSurface

open ApiSurface.Text

/-- The kinds of lines in the body of a signature file. -/
inductive LineKind where
  | classHeader
  | member (kind : MemberKind)
  | annotated
  | hiddenFields
  | hiddenClasses
  | moduleBlock
  | unknown
  deriving DecidableEq, Repr

/-- The first word of a class block. -/
def classTag : String := "CLSS"

/-- The first word of a line with hidden fields. -/
def hiddenFieldsTag : String := "hfds"

/-- The first word of a line with hidden classes. -/
def hiddenClassesTag : String := "hcls"

/-- What a module block begins with. -/
def moduleLead : List Char := "<module".toList

/-- What comes before the first space. -/
def firstWord (cs : List Char) : List Char := cs.takeWhile (· != ' ')

/-- The kind of a line. -/
def LineKind.of (cs : List Char) : LineKind :=
  if moduleLead.isPrefixOf cs then .moduleBlock
  else
    let word := String.ofList (firstWord cs)
    if word = classTag then .classHeader
    else if word = hiddenFieldsTag then .hiddenFields
    else if word = hiddenClassesTag then .hiddenClasses
    else if beginsUse cs then .annotated
    else
      match MemberKind.ofTag? word with
      | some kind => .member kind
      | none => .unknown

end ApiSurface
