import ApiSurface.Files.Path

/-!
Files and directories, and how a path leads to one of them. The directories in which programs work and
keep temporary files are part of the tree. Main statement: what is put at a place is found there
(`get?_put`).
-/

namespace ApiSurface

open ApiSurface.Text

/-- Why a file is not there, or cannot be used as asked. -/
inductive FileFault where
  | notFound
  | permissionDenied
  | notExecutable
  | noDevice
  | notDirectory
  | isDirectory
  | nameTooLong
  /-- No path holds the character zero. -/
  | zeroCharacter
  deriving DecidableEq, Repr

/-- The fault in words, as programs tell it to their users. -/
def FileFault.words : FileFault → String
  | .notFound => "No such file or directory"
  | .notExecutable => "Exec format error"
  | .permissionDenied => "Permission denied"
  | .noDevice => "No such device"
  | .notDirectory => "Not a directory"
  | .isDirectory => "Is a directory"
  | .nameTooLong => "File name too long"
  | .zeroCharacter => "file name contained an unexpected NUL byte"

/-- The number of the fault, if the operating system has one for it. -/
def FileFault.number? : FileFault → Option Nat
  | .notFound => some 2
  | .notExecutable => some 8
  | .permissionDenied => some 13
  | .noDevice => some 19
  | .notDirectory => some 20
  | .isDirectory => some 21
  | .nameTooLong => some 36
  | .zeroCharacter => none

/-- The fault in words, with its number. -/
def FileFault.message (fault : FileFault) : String :=
  match fault.number? with
  | some n => fault.words ++ " (os error " ++ toString n ++ ")"
  | none => fault.words

/-- A file or a directory. -/
inductive FileNode where
  | file (bytes : List UInt8) (executable : Bool)
  /-- The names in a directory, each with what it stands for; the first one of a name counts. -/
  | directory (children : List (List Char × FileNode))

namespace FileNode

instance : Inhabited FileNode := ⟨.directory []⟩

/-- An empty directory. -/
def emptyDirectory : FileNode := .directory []

/-- Whether this is a directory. -/
def isDirectory : FileNode → Bool
  | .directory _ => true
  | .file .. => false

/-- What is in a directory. -/
def children : FileNode → List (List Char × FileNode)
  | .directory children => children
  | .file .. => []

/-- What a name in a directory stands for. -/
def child? (node : FileNode) (name : List Char) : Option FileNode := node.children.lookup name

/-- The children with one of them changed, taken away or added. -/
def changeChild (name : List Char) (new : Option FileNode) (children : List (List Char × FileNode)) :
    List (List Char × FileNode) :=
  let others := children.filter fun entry => entry.1 != name
  match new with
  | some node => (name, node) :: others
  | none => others

/-- What is at a place, given by names from the top. -/
def get? : FileNode → List (List Char) → Option FileNode
  | node, [] => some node
  | node, name :: more => (node.child? name).bind fun child => child.get? more

/-- The tree with something at a place. Directories on the way are made; a file on the way gives way to a
directory. -/
def put : FileNode → List (List Char) → FileNode → FileNode
  | _, [], new => new
  | node, name :: more, new =>
    let child := (node.child? name).getD emptyDirectory
    .directory (changeChild name (some (child.put more new)) node.children)

/-- The tree without what is at a place. -/
def erase : FileNode → List (List Char) → FileNode
  | node, [] => node
  | node, [name] => .directory (changeChild name none node.children)
  | node, name :: more =>
    match node.child? name with
    | none => node
    | some child => .directory (changeChild name (some (child.erase more)) node.children)

mutual

/-- The files of a tree, each with the names that lead to it. -/
def files : FileNode → List (List (List Char) × List UInt8)
  | .file bytes _ => [([], bytes)]
  | .directory children => filesOf children

/-- The files in a directory. -/
def filesOf : List (List Char × FileNode) → List (List (List Char) × List UInt8)
  | [] => []
  | (name, node) :: more => (node.files.map fun (names, bytes) => (name :: names, bytes)) ++ filesOf more

end

mutual

/-- What there is when a tree is copied to a place where something else is: directories are joined, and
for all else the new counts. -/
def laidOver : FileNode → FileNode → FileNode
  | .directory new, .directory old => .directory (layAll new old)
  | .directory new, .file .. => .directory new
  | .file bytes executable, _ => .file bytes executable

/-- The children of a directory after others were copied into it. -/
def layAll : List (List Char × FileNode) → List (List Char × FileNode) → List (List Char × FileNode)
  | [], old => old
  | (name, node) :: more, old =>
    let laid := match old.lookup name with
      | some there => node.laidOver there
      | none => node
    layAll more (changeChild name (some laid) old)

end

@[simp] theorem child?_directory (children : List (List Char × FileNode)) (name : List Char) :
    (directory children).child? name = children.lookup name := rfl

/-- What is put at a place is found there. -/
theorem get?_put (node new : FileNode) (place : List (List Char)) :
    (node.put place new).get? place = some new := by
  induction place generalizing node with
  | nil => rfl
  | cons name more ih => simp [put, get?, changeChild, ih]

end FileNode

/-- A file system. Places are lists of names from the root. -/
structure FileSystem where
  root : FileNode
  /-- Where relative paths begin. -/
  current : List (List Char)
  /-- Where temporary files are kept unless another place is named. -/
  temporary : Path

namespace FileSystem

/-- Where programs work. -/
def workPlace : List (List Char) := ["work".toList]

/-- The place of temporary files. -/
def temporaryPlace : Path := "/tmp".toList

/-- A file system with nothing in it but an empty directory to work in and one for temporary files. -/
def empty : FileSystem :=
  ⟨(FileNode.emptyDirectory.put workPlace .emptyDirectory).put ["tmp".toList] .emptyDirectory,
    workPlace, temporaryPlace⟩

/-! ### Following paths -/

/-- The longest name in a directory, in bytes. -/
def longestName : Nat := 255

/-- The first length of a path that is too long, in bytes. -/
def tooLongPath : Nat := 4096

/-- Follows names from a place. A name can only be followed in a directory. -/
def follow (root : FileNode) : List (List Char) → List (List Char) → Except FileFault (List (List Char))
  | place, [] => .ok place
  | place, name :: more =>
    match root.get? place with
    | none => .error .notFound
    | some (.file ..) => .error .notDirectory
    | some (.directory _) =>
      if name.isEmpty ∨ name = ['.'] then follow root place more
      else if name = ['.', '.'] then follow root place.dropLast more
      else if longestName < byteLength name then .error .nameTooLong
      else if (root.get? (place ++ [name])).isSome then follow root (place ++ [name]) more
      else .error .notFound

/-- The place that a path leads to. -/
def locate (fs : FileSystem) (p : Path) : Except FileFault (List (List Char)) :=
  if p.contains '\x00' then .error .zeroCharacter
  else if p.isEmpty then .error .notFound
  else if tooLongPath ≤ byteLength p then .error .nameTooLong
  else follow fs.root (if p.isAbsolute then [] else fs.current) (pieces '/' p)

/-- What a path leads to. -/
def find (fs : FileSystem) (p : Path) : Except FileFault FileNode :=
  match fs.locate p with
  | .error fault => .error fault
  | .ok place =>
    match fs.root.get? place with
    | some node => .ok node
    | none => .error .notFound

/-- Whether a path leads anywhere. -/
def exists? (fs : FileSystem) (p : Path) : Bool := (fs.find p).toOption.isSome

/-- Whether a path leads to a directory. -/
def isDirectory (fs : FileSystem) (p : Path) : Bool :=
  match fs.find p with
  | .ok (.directory _) => true
  | _ => false

/-- Whether a path leads to a file. -/
def isFile (fs : FileSystem) (p : Path) : Bool :=
  match fs.find p with
  | .ok (.file ..) => true
  | _ => false

/-- The bytes of a file. -/
def read (fs : FileSystem) (p : Path) : Except FileFault (List UInt8) :=
  match fs.find p with
  | .ok (.file bytes _) => .ok bytes
  | .ok (.directory _) => .error .isDirectory
  | .error fault => .error fault

/-- How many names a directory holds, if the path leads to one. -/
def count? (fs : FileSystem) (p : Path) : Option Nat :=
  match fs.find p with
  | .ok (.directory children) => some children.length
  | _ => none

/-! ### Changes -/

/-- The place that a path names, whether or not there is something, as long as its directory is there. -/
def placeFor (fs : FileSystem) (p : Path) : Except FileFault (List (List Char)) :=
  match fs.locate p with
  | .ok place => .ok place
  | .error .notFound =>
    match p.fileName? with
    | none => .error .notFound
    | some name =>
      let names := (pieces '/' p).reverse.dropWhile fun n => n.isEmpty || n == ['.']
      let parent := join ['/'] (names.drop 1).reverse
      let directory := if parent.isEmpty then (if p.isAbsolute then ['/'] else ['.']) else parent
      match fs.find directory, fs.locate directory with
      | .ok (.directory _), .ok place => .ok (place ++ [name])
      | .ok (.file ..), _ => .error .notDirectory
      | .error fault, _ => .error fault
      | _, .error fault => .error fault
  | .error fault => .error fault

/-- The file system with something at a place. -/
def putAt (fs : FileSystem) (place : List (List Char)) (node : FileNode) : FileSystem :=
  { fs with root := fs.root.put place node }

/-- The place that a path names in the directory for work, as if all directories on the way were there. -/
def plainPlace (fs : FileSystem) (p : Path) : List (List Char) :=
  let names := (pieces '/' p).filter fun name => !name.isEmpty && name != ['.']
  (if p.isAbsolute then [] else fs.current) ++ names

/-- The file system with a file; directories on the way are made. -/
def addFile (fs : FileSystem) (p : Path) (bytes : List UInt8) (executable : Bool) : FileSystem :=
  fs.putAt (fs.plainPlace p) (.file bytes executable)

/-- The file system with a directory; directories on the way are made, and one that is there stays. -/
def addDirectory (fs : FileSystem) (p : Path) : FileSystem :=
  if fs.isDirectory p then fs else fs.putAt (fs.plainPlace p) .emptyDirectory

/-- The file system without what a path leads to. -/
def remove (fs : FileSystem) (p : Path) : FileSystem :=
  match fs.locate p with
  | .ok place => { fs with root := fs.root.erase place }
  | .error _ => fs

/-- The first name for a temporary directory that is not in use, among one more than names are in use. -/
def freshName (node : FileNode) : List Char :=
  let name (n : Nat) : List Char := ".tmp".toList ++ (toString n).toList
  name ((List.range node.children.length).find? (fun n => (node.child? (name n)).isNone)
    |>.getD node.children.length)

/-- Makes a new directory with a name of its own in the directory that a path leads to. -/
def makeTemporary (fs : FileSystem) (p : Path) : Except FileFault (Path × FileSystem) :=
  match fs.find p, fs.locate p with
  | .ok (.directory children), .ok place =>
    let name := freshName (.directory children)
    .ok (p.join name, fs.putAt (place ++ [name]) .emptyDirectory)
  | .ok (.file ..), _ => .error .notDirectory
  | .error fault, _ => .error fault
  | _, .error fault => .error fault

end FileSystem

end ApiSurface
