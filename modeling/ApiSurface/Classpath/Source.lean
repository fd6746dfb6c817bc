import ApiSurface.Archive.Basic
import ApiSurface.ClassFile.Description
import ApiSurface.Classpath.Naming
import ApiSurface.Files.Tree

/-!
Sources of classes: directories of class files, archives, module images, which were extracted into one
directory for each module, and signature files. Something is looked up in a source by the name of a class.
Main statements: what a directory finds is the file at the path of the class (`find_directory_eq_ok_iff`),
and a module image or a signature file that was closed holds nothing (`contains_close_image`,
`contains_close_signatureFile`).
-/

namespace ApiSurface

open ApiSurface.Text

/-- What there is for the name of a class. -/
inductive Found where
  | bytecode (bytes : List UInt8)
  | description (c : ClassDescription)

/-- Why there is nothing for a name. -/
inductive LookupFault where
  | classNotFound (name : String)
  | badClass (bad : BadClassFile)
  | file (fault : FileFault)
  | entry (fault : EntryFault)
  /-- The archive was closed. -/
  | closed (archive : Path)
  deriving DecidableEq, Repr

namespace LookupFault

/-- The fault in words. -/
def message : LookupFault → String
  | .classNotFound name => "Class not found: " ++ name
  | .badClass bad => bad.message
  | .file fault => "I/O error: " ++ fault.message
  | .entry fault => fault.message
  | .closed archive => "I/O error: archive " ++ String.ofList archive ++ " is closed"

/-- Whether the name is only not there, so that another source can have it. -/
def isNotFound : LookupFault → Bool
  | .classNotFound _ => true
  | _ => false

end LookupFault

/-- The description of a class. -/
def Found.describe : Found → Except LookupFault ClassDescription
  | .description c => .ok c
  | .bytecode bytes => (ClassFile.parse bytes).mapError .badClass

/-- The module that the bytes of a class file describe. -/
def moduleOfBytes (bytes : List UInt8) : Except LookupFault (Option ModuleDescription) :=
  match ClassFile.parse bytes with
  | .ok c => .ok c.moduleInfo
  | .error bad => .error (.badClass bad)

/-! ### Directories -/

namespace ClassDirectory

/-- The path of a directory that stands for the usual input, in which there are no files. -/
def usualInput : Path := ['-']

/-- The names of the classes whose files are below a directory, in ascending order. -/
def names (fs : FileSystem) (root : Path) : Except FileFault (List String) :=
  if root = usualInput then .ok []
  else
    match fs.find root with
    | .error fault => .error fault
    | .ok node =>
      .ok ((node.files.filterMap fun (way, _) => className? (join ['/'] way)).mergeSort
        fun a b => decide (a ≤ b))

/-- The file of a class. -/
def find (fs : FileSystem) (root : Path) (name : String) : Except LookupFault Found :=
  match fs.read (root.join (classPath name)) with
  | .ok bytes => .ok (.bytecode bytes)
  | .error .notFound => .error (.classNotFound name)
  | .error fault => .error (.file fault)

/-- Whether there is a file of a class. -/
def contains (fs : FileSystem) (root : Path) (name : String) : Bool :=
  fs.isFile (root.join (classPath name))

/-- The module that is described in a directory. -/
def module? (fs : FileSystem) (root : Path) : Except LookupFault (Option ModuleDescription) :=
  let p := root.join moduleDescriptor
  if fs.isFile p then
    match fs.read p with
    | .ok bytes => moduleOfBytes bytes
    | .error fault => .error (.file fault)
  else .ok none

theorem find_eq_ok_iff {fs : FileSystem} {root : Path} {name : String} {found : Found} :
    find fs root name = .ok found ↔
      ∃ bytes, fs.read (root.join (classPath name)) = .ok bytes ∧ found = .bytecode bytes := by
  unfold find
  split <;> rename_i result <;> simp [result, eq_comm]

end ClassDirectory

/-- The modules that are described in directories, in their order. -/
def directoryModules (fs : FileSystem) : List Path → Except LookupFault (List ModuleDescription)
  | [] => .ok []
  | root :: more =>
    match ClassDirectory.module? fs root with
    | .error fault => .error fault
    | .ok m =>
      match directoryModules fs more with
      | .error fault => .error fault
      | .ok ms => .ok (m.toList ++ ms)

/-- What the first of some lookups gives that knows more than that the name is not there. -/
def firstHit {α : Type} (lookup : α → Except LookupFault Found) (name : String) :
    List α → Except LookupFault Found
  | [] => .error (.classNotFound name)
  | a :: more =>
    match lookup a with
    | .ok found => .ok found
    | .error fault => if fault.isNotFound then firstHit lookup name more else .error fault

/-! ### Archives -/

namespace Archive

/-- What the names of entries about the archive itself begin with. -/
def metaLead : List Char := "META-INF/".toList

/-- What the names of entries for single releases begin with. -/
def versionsLead : List Char := "META-INF/versions/".toList

/-- The names of the classes whose files are in an archive, in ascending order. -/
def classNames (a : Archive) : List String :=
  let entries := (a.names.map String.toList).filter fun name => !metaLead.isPrefixOf name
  (entries.filterMap className?).mergeSort fun a b => decide (a ≤ b)

/-- The greatest of some names. -/
def greatest? : List String → Option String
  | [] => none
  | name :: more =>
    match greatest? more with
    | none => some name
    | some other => some (if name ≤ other then other else name)

/-- The entry for a single release that describes the module. -/
def releaseDescriptor? (a : Archive) : Option String :=
  greatest? (a.names.filter fun name =>
    versionsLead.isPrefixOf name.toList && moduleDescriptor.isSuffixOf name.toList)

/-- The bytes of an entry of an archive that can be closed. -/
def readOpen (path : Path) (contents : Option Archive) (name : String) :
    Except LookupFault (Option (List UInt8)) :=
  match contents with
  | none => .error (.closed path)
  | some a => (a.read name).mapError .entry

/-- The module that is described in an archive: in all releases, or in the one whose name is greatest. -/
def module? (path : Path) (contents : Option Archive) : Except LookupFault (Option ModuleDescription) :=
  match readOpen path contents (String.ofList moduleDescriptor) with
  | .error fault => .error fault
  | .ok (some bytes) => moduleOfBytes bytes
  | .ok none =>
    match contents.bind releaseDescriptor? with
    | none => .ok none
    | some name =>
      match readOpen path contents name with
      | .error fault => .error fault
      | .ok none => .ok none
      | .ok (some bytes) => moduleOfBytes bytes

end Archive

/-! ### Sources -/

/-- A source of classes. -/
inductive Source where
  | directory (root : Path)
  /-- An archive, until it is closed, and the classes in it. -/
  | archive (path : Path) (contents : Option Archive) (present : List String)
  /-- A module image, with the directory into which it was extracted until that is removed, and the
  directories of its modules. -/
  | image (extracted : Option Path) (roots : List Path)
  | signatureFile (classes : List ClassDescription) (modules : List ModuleDescription)

namespace Source

/-- What there is for the name of a class. -/
def find (s : Source) (fs : FileSystem) (name : String) : Except LookupFault Found :=
  match s with
  | .directory root => ClassDirectory.find fs root name
  | .archive path contents present =>
    if present.contains name then
      match Archive.readOpen path contents (String.ofList (classPath name)) with
      | .error fault => .error fault
      | .ok (some bytes) => .ok (.bytecode bytes)
      | .ok none => .error (.classNotFound name)
    else .error (.classNotFound name)
  | .image _ roots => firstHit (fun root => ClassDirectory.find fs root name) name roots
  | .signatureFile classes _ =>
    match classes.find? (·.name == name) with
    | some c => .ok (.description c)
    | none => .error (.classNotFound name)

/-- Whether there is something for the name of a class. -/
def contains (s : Source) (fs : FileSystem) (name : String) : Bool :=
  match s with
  | .directory root => ClassDirectory.contains fs root name
  | .archive _ _ present => present.contains name
  | .image _ roots => roots.any fun root => ClassDirectory.contains fs root name
  | .signatureFile classes _ => classes.any (·.name == name)

/-- The modules that are described. -/
def modules (s : Source) (fs : FileSystem) : Except LookupFault (List ModuleDescription) :=
  match s with
  | .directory root => (ClassDirectory.module? fs root).map Option.toList
  | .archive path contents _ => (Archive.module? path contents).map Option.toList
  | .image _ roots => directoryModules fs roots
  | .signatureFile _ modules => .ok modules

/-- The classes of a signature file, in the order of the file. -/
def listedNames? : Source → Option (List String)
  | .signatureFile classes _ => some (classes.map (·.name))
  | _ => none

/-- Closes a source, and removes what was extracted for it. -/
def close (s : Source) (fs : FileSystem) : Source × FileSystem :=
  match s with
  | .directory root => (.directory root, fs)
  | .archive path _ present => (.archive path none present, fs)
  | .image extracted _ => (.image none [], extracted.elim fs fs.remove)
  | .signatureFile .. => (.signatureFile [] [], fs)

/-! ### Laws -/

/-- What a directory finds is the file at the path of the class. -/
theorem find_directory_eq_ok_iff {fs : FileSystem} {root : Path} {name : String} {found : Found} :
    find (.directory root) fs name = .ok found ↔
      ∃ bytes, fs.read (root.join (classPath name)) = .ok bytes ∧ found = .bytecode bytes :=
  ClassDirectory.find_eq_ok_iff

/-- A module image that was closed holds nothing. -/
theorem contains_close_image (extracted : Option Path) (roots : List Path) (fs fs' : FileSystem)
    (name : String) : ((close (.image extracted roots) fs).1.contains fs' name) = false := rfl

/-- A signature file that was closed holds nothing. -/
theorem contains_close_signatureFile (classes : List ClassDescription) (modules : List ModuleDescription)
    (fs fs' : FileSystem) (name : String) :
    ((close (.signatureFile classes modules) fs).1.contains fs' name) = false := rfl

end Source

end ApiSurface
