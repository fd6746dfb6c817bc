import ApiSurface.Classpath.Extraction
import ApiSurface.Classpath.Listing
import ApiSurface.Classpath.Shadow
import ApiSurface.Classpath.Source

/-!
Entries of a class path. An entry is a source of classes with the names that it was the first to claim. Its
kind follows from its path alone. Main statements: an entry lists the names that it gained
(`all_listing_claim`), and an entry that was closed lists no names (`hasNext_close`).
-/

namespace ApiSurface

open ApiSurface.Text

/-! ### Kinds -/

/-- The kind of an entry. -/
inductive EntryKind where
  | directory | archive | image | signatureFile
  deriving DecidableEq, Repr

namespace EntryKind

/-- The name of the kind. -/
def name : EntryKind → String
  | .directory => "Directory"
  | .archive => "Jar"
  | .image => "ModuleImage"
  | .signatureFile => "SignatureFile"

/-- The name of a file that is a module image whatever its extension. -/
def imageName : List Char := "modules".toList

/-- The kinds of files by their extension in small letters. -/
def byExtension : List (String × EntryKind) :=
  [("jar", .archive), ("zip", .archive), ("jimage", .image), ("sig", .signatureFile)]

/-- The kind of an entry with this path. -/
def ofPath? (fs : FileSystem) (p : Path) : Option EntryKind :=
  if fs.isDirectory p then some .directory
  else if p.fileName? = some imageName then some .image
  else p.extension?.bind fun extension => byExtension.lookup (String.ofList (extension.map Char.toLower))

end EntryKind

/-! ### Opening -/

/-- Why a source cannot be opened. -/
inductive LoadFault where
  | noDirectory (root : Path) (fault : FileFault)
  | noFile (p : Path) (fault : FileFault)
  /-- The file cannot be looked at as a whole. -/
  | notMapped (p : Path) (fault : FileFault)
  | badArchive (p : Path) (fault : ArchiveFault)
  | noTemporary (fault : FileFault)
  | tool (fault : ToolFault)
  /-- The file of signatures cannot be read, or its first line cannot. -/
  | unreadable (p : Path) (fault : FileFault)
  | badStart (p : Path) (e : ReadError)
  | unknownBanner (p : Path)
  | badSignatures (p : Path) (e : ReadError)
  deriving DecidableEq, Repr

/-- The fault in words: what was tried, what went wrong, and the cause of that. -/
def LoadFault.message : LoadFault → String
  | .noDirectory root fault =>
    let p := String.ofList root
    "Failed to walk " ++ p ++ ": " ++ p ++ ": IO error for operation on " ++ p ++ ": " ++ fault.message
  | .noFile p fault => "Failed to open " ++ String.ofList p ++ ": " ++ fault.message
  | .notMapped p fault => "Failed to mmap " ++ String.ofList p ++ ": " ++ fault.message
  | .badArchive p fault => "Failed to read archive " ++ String.ofList p ++ ": " ++ fault.message
  | .noTemporary fault => "Failed to create extraction directory: " ++ fault.message
  | .tool fault => fault.message
  | .unreadable p fault =>
    "Failed to open " ++ String.ofList p ++ ": I/O error: " ++ fault.message ++ ": " ++ fault.message
  | .badStart p e => "Failed to open " ++ String.ofList p ++ ": " ++ e.fullMessage
  | .unknownBanner p => formatMismatchMessage (String.ofList p)
  | .badSignatures p e => "Failed to read signature file " ++ String.ofList p ++ ": " ++ e.fullMessage

/-- A source that was opened, and the names that it offers in their order. -/
structure Loaded where
  source : Source
  names : List String

namespace Loaded

/-- Opens a directory. -/
def directory (fs : FileSystem) (p : Path) : Except LoadFault Loaded :=
  match ClassDirectory.names fs p with
  | .ok names => .ok ⟨.directory p, names⟩
  | .error fault => .error (.noDirectory p fault)

/-- Opens an archive. -/
def archive (fs : FileSystem) (p : Path) : Except LoadFault Loaded :=
  match fs.find p with
  | .error fault => .error (.noFile p fault)
  | .ok (.directory _) => .error (.notMapped p .noDevice)
  | .ok (.file bytes _) =>
    match Archive.ofBytes bytes with
    | .error fault => .error (.badArchive p fault)
    | .ok a => .ok ⟨.archive p (some a) a.classNames, a.classNames⟩

/-- Keeps the first class of each name. -/
def firstOfName : List ClassDescription → List ClassDescription
  | [] => []
  | c :: more => c :: (firstOfName more).filter (·.name != c.name)

/-- Opens a signature file that was read. -/
def ofDescriptions (cs : List ClassDescription) : Loaded :=
  let classes := firstOfName (cs.filter (!·.isModule))
  ⟨.signatureFile classes (cs.filterMap (·.moduleInfo)), classes.map (·.name)⟩

/-- Opens a signature file. -/
def signatureFile (fs : FileSystem) (p : Path) : Except LoadFault Loaded :=
  match fs.read p with
  | .error fault => .error (.unreadable p fault)
  | .ok bytes =>
    match Reader.open? (SignatureFile.ofBytes bytes) with
    | .error e => .error (.badStart p e)
    | .ok none => .error (.unknownBanner p)
    | .ok (some r) =>
      match r.readAll with
      | (.error e, _) => .error (.badSignatures p e)
      | (.ok cs, _) => .ok (ofDescriptions cs)

/-- The directories in a directory, in ascending order. -/
def directoriesIn (fs : FileSystem) (p : Path) : List Path :=
  match fs.find p with
  | .ok node =>
    let names := (node.children.filter (·.2.isDirectory)).map fun child => String.ofList child.1
    (names.mergeSort fun a b => decide (a ≤ b)).map fun name => p.join name.toList
  | .error _ => []

/-- The names of the classes in several directories, one after another. -/
def namesIn (fs : FileSystem) : List Path → Except LoadFault (List String)
  | [] => .ok []
  | root :: more =>
    match ClassDirectory.names fs root with
    | .error fault => .error (.noDirectory root fault)
    | .ok names =>
      match namesIn fs more with
      | .error fault => .error fault
      | .ok others => .ok (names ++ others)

/-- Opens a module image. What was extracted is removed again if something goes wrong. -/
def image (settings : Settings) (fs : FileSystem) (p : Path) : Except LoadFault Loaded × FileSystem :=
  match fs.makeTemporary (settings.temporary.getD fs.temporary) with
  | .error fault => (.error (.noTemporary fault), fs)
  | .ok (target, fs) =>
    match extract (settings.tool fs) settings.timeLimit p target fs with
    | (.error fault, fs) => (.error (.tool fault), fs.remove target)
    | (.ok (), fs) =>
      let roots := directoriesIn fs target
      match namesIn fs roots with
      | .error fault => (.error fault, fs.remove target)
      | .ok names => (.ok ⟨.image (some target) roots, names⟩, fs)

/-- Opens a source of some kind. -/
def ofKind (kind : EntryKind) (settings : Settings) (fs : FileSystem) (p : Path) :
    Except LoadFault Loaded × FileSystem :=
  match kind with
  | .directory => (directory fs p, fs)
  | .archive => (archive fs p, fs)
  | .image => image settings fs p
  | .signatureFile => (signatureFile fs p, fs)

end Loaded

/-! ### Entries -/

/-- An entry of a class path. -/
structure Entry where
  location : Path
  /-- The names that the entry was the first to claim. -/
  listing : Listing
  source : Source

namespace Entry

/-- The entry of a source that was opened, with this number. -/
def claim (location : Path) (loaded : Loaded) (shadow : Shadow) (index : Nat) : Entry × Shadow :=
  let (names, shadow) := shadow.claimAll loaded.names index
  (⟨location, .ofNames names, loaded.source⟩, shadow)

/-- Opens an entry with this number. -/
def openAt (kind : EntryKind) (settings : Settings) (p : Path) (shadow : Shadow) (index : Nat)
    (fs : FileSystem) : Except LoadFault (Entry × Shadow) × FileSystem :=
  match Loaded.ofKind kind settings fs p with
  | (.error fault, fs) => (.error fault, fs)
  | (.ok loaded, fs) => (.ok (claim p loaded shadow index), fs)

/-- Whether a name is ahead. -/
def hasNext (e : Entry) : Bool := e.listing.hasNext

/-- The next name. -/
def next? (e : Entry) : Option (String × Entry) :=
  e.listing.next?.map fun (name, listing) => (name, { e with listing })

/-- The entry before any name was given out. -/
def rewind (e : Entry) : Entry := { e with listing := e.listing.rewind }

/-- What there is for the name of a class. -/
def find (e : Entry) (fs : FileSystem) (name : String) : Except LookupFault Found := e.source.find fs name

/-- Whether there is something for the name of a class, claimed or not. -/
def contains (e : Entry) (fs : FileSystem) (name : String) : Bool := e.source.contains fs name

/-- The modules that are described. -/
def modules (e : Entry) (fs : FileSystem) : Except LookupFault (List ModuleDescription) :=
  e.source.modules fs

/-- Closes the entry. -/
def close (e : Entry) (fs : FileSystem) : Entry × FileSystem :=
  let (source, fs) := e.source.close fs
  ({ e with listing := .empty, source }, fs)

/-! ### Laws -/

/-- An entry lists the names that it gained. -/
theorem all_listing_claim (location : Path) (loaded : Loaded) (shadow : Shadow) (index : Nat) :
    (claim location loaded shadow index).1.listing.all = (shadow.claimAll loaded.names index).1 := rfl

/-- An entry that was closed lists no names. -/
theorem hasNext_close (e : Entry) (fs : FileSystem) : (e.close fs).1.hasNext = false := rfl

end Entry

end ApiSurface
