import ApiSurface.Files.Path

/-!
Names of classes and the paths of their files. A path that ends in `.class` stands for the class whose
name has a dot for each slash; files that describe a module or a package stand for no class. Main statement:
the path of a class stands for that class (`className?_classPath`).
-/

namespace ApiSurface

open ApiSurface.Text

/-- What the path of a class file ends in. -/
def classSuffix : List Char := ".class".toList

/-- The last names of files that describe no class. -/
def descriptorNames : List (List Char) := ["module-info".toList, "package-info".toList]

/-- The name of the class whose file has this path. -/
def className? (p : Path) : Option String :=
  match beforeTail? classSuffix p with
  | none => none
  | some stem =>
    let name := replaceChar '\\' '.' (replaceChar '/' '.' stem)
    if descriptorNames.contains (lastPiece '.' name) then none else some (String.ofList name)

/-- The path of the file of a class. -/
def classPath (name : String) : Path := replaceChar '.' '/' name.toList ++ classSuffix

/-- The file that describes the module of a directory or an archive. -/
def moduleDescriptor : Path := "module-info.class".toList

/-! ### Laws -/

/-- The path of a class stands for that class, unless its name has slashes or is that of a description. -/
theorem className?_classPath {name : String} (slash : '/' ∉ name.toList) (backslash : '\\' ∉ name.toList)
    (class' : descriptorNames.contains (lastPiece '.' name.toList) = false) :
    className? (classPath name) = some name := by
  simp only [className?, classPath, beforeTail?_append, replaceChar_replaceChar slash,
    replaceChar_of_notMem backslash, class', Bool.false_eq_true, if_false, String.ofList_toList]

end ApiSurface
