import ApiSurface.Text.Basic

/-!
Paths of files as text: names with slashes between them, absolute if a slash comes first. Main statement:
what is not absolute is put after a directory, with a slash between (`join_of_relative`).
-/

namespace ApiSurface

open ApiSurface.Text

/-- A path. -/
abbrev Path := List Char

namespace Path

/-- Whether the path begins at the root. -/
def isAbsolute (p : Path) : Bool := ['/'].isPrefixOf p

/-- A path as seen from a directory. An absolute path stays as it is. -/
def join (directory p : Path) : Path :=
  if p.isAbsolute ∨ directory.isEmpty then p
  else if (['/'].isSuffixOf directory) then directory ++ p
  else directory ++ '/' :: p

/-- The last name of the path; dots that stand for the directory itself do not count. There is none at
the root, and after dots that stand for the directory above. -/
def fileName? (p : Path) : Option (List Char) :=
  let names := (pieces '/' p).filter fun name => !name.isEmpty && name != ['.']
  names.getLast?.filter (· != ['.', '.'])

/-- What follows the last dot of the last name, if something comes before the dot. -/
def extension? (p : Path) : Option (List Char) :=
  p.fileName?.bind fun name =>
    if name.contains '.' then
      let extension := lastPiece '.' name
      if extension.length + 1 = name.length then none else some extension
    else none

theorem join_of_relative {directory p : Path} (relative : p.isAbsolute = false)
    (nonempty : directory ≠ []) (open' : ['/'].isSuffixOf directory = false) :
    join directory p = directory ++ '/' :: p := by
  simp [join, relative, nonempty, open']

end Path

end ApiSurface
