import ApiSurface.Classpath.Entry

/-!
Class paths: entries, one behind another, of which an earlier one shadows the later ones. An element that
cannot be used is left out and its fault is kept, or else ends the opening of a strict class path. Main
statements: the entries and the owners of names after an element that fails are those from before
(`classpath_add_of_fault`), going back gives out the same names (`names_rewind`), and a class path that was
closed gives out none (`next?_close`).
-/

namespace ApiSurface

open ApiSurface.Text

/-- Why an element of a class path cannot be used. -/
inductive OpenFault where
  | empty
  | missing (p : Path)
  | duplicate (p : Path)
  | unrecognized (p : Path)
  | entry (kind : EntryKind) (p : Path) (fault : LoadFault)
  deriving DecidableEq, Repr

/-- The fault in words. -/
def OpenFault.message : OpenFault → String
  | .empty => "Empty classpath element"
  | .missing p => "Classpath element does not exist: " ++ String.ofList p
  | .duplicate p => "Duplicate classpath element: " ++ String.ofList p
  | .unrecognized p => "Unrecognized classpath element: " ++ String.ofList p
  | .entry kind p fault =>
    "Failed to open " ++ kind.name ++ " entry " ++ String.ofList p ++ ": " ++ fault.message

/-- How well a class is known. -/
inductive Presence where
  | description
  /-- There are bytes of the class, but they describe none. -/
  | bytecodeOnly
  | notFound
  deriving DecidableEq, Repr

/-- The name of the presence. -/
def Presence.name : Presence → String
  | .description => "Description"
  | .bytecodeOnly => "BytecodeOnly"
  | .notFound => "NotFound"

/-- A class path. -/
structure Classpath where
  entries : List Entry
  shadow : Shadow
  /-- The faults of the elements that were left out, in their order. -/
  faults : List OpenFault
  isClosed : Bool

namespace Classpath

/-- A class path without entries. -/
def empty : Classpath := ⟨[], .empty, [], false⟩

/-! ### Opening -/

/-- A class path that is being opened. -/
structure Opening where
  classpath : Classpath
  /-- The places of the elements that were there. -/
  seen : List (List (List Char))
  files : FileSystem

namespace Opening

/-- The start, without elements. -/
def start (fs : FileSystem) : Opening := ⟨.empty, [], fs⟩

/-- Adds an element that is there and was not seen before. -/
def addNew (settings : Settings) (o : Opening) (p : Path) : Option OpenFault × Opening :=
  match EntryKind.ofPath? o.files p with
  | none => (some (.unrecognized p), o)
  | some kind =>
    match Entry.openAt kind settings p o.classpath.shadow o.classpath.entries.length o.files with
    | (.error fault, fs) => (some (.entry kind p fault), { o with files := fs })
    | (.ok (e, shadow), fs) =>
      (none, { o with
        classpath := { o.classpath with entries := o.classpath.entries ++ [e], shadow }
        files := fs })

/-- Adds an element, unless something is wrong with it. -/
def add (settings : Settings) (o : Opening) (p : Path) : Option OpenFault × Opening :=
  if allBlank p then (some .empty, o)
  else
    match o.files.locate p with
    | .error _ => (some (.missing p), o)
    | .ok place =>
      if o.seen.contains place then (some (.duplicate p), o)
      else addNew settings { o with seen := place :: o.seen } p

/-- Adds an element, or keeps the fault if something is wrong with it. -/
def addOrKeep (settings : Settings) (o : Opening) (p : Path) : Opening :=
  match o.add settings p with
  | (none, o) => o
  | (some fault, o) =>
    { o with classpath := { o.classpath with faults := o.classpath.faults ++ [fault] } }

theorem classpath_addNew_of_fault {settings : Settings} {o after : Opening} {p : Path} {fault : OpenFault}
    (failed : o.addNew settings p = (some fault, after)) : after.classpath = o.classpath := by
  unfold addNew at failed
  split at failed
  · cases failed
    rfl
  · split at failed
    · cases failed
      rfl
    · cases failed

/-- The entries and the owners of names after an element that fails are those from before. -/
theorem classpath_add_of_fault {settings : Settings} {o after : Opening} {p : Path} {fault : OpenFault}
    (failed : o.add settings p = (some fault, after)) : after.classpath = o.classpath := by
  unfold add at failed
  split at failed
  · cases failed
    rfl
  · split at failed
    · cases failed
      rfl
    · split at failed
      · cases failed
        rfl
      · have kept := classpath_addNew_of_fault failed
        exact kept

end Opening

/-- The elements of a class path. -/
def elements (settings : Settings) (text : List Char) : List Path := pieces settings.separator text

/-- Opens a class path with all elements that can be used. -/
def openAll (settings : Settings) (text : List Char) (fs : FileSystem) : Classpath × FileSystem :=
  let o := (elements settings text).foldl (Opening.addOrKeep settings) (.start fs)
  (o.classpath, o.files)

/-! ### Closing -/

/-- Closes entries one after another. -/
def closeEntries : List Entry → FileSystem → List Entry × FileSystem
  | [], fs => ([], fs)
  | e :: more, fs =>
    let (e, fs) := e.close fs
    let (more, fs) := closeEntries more fs
    (e :: more, fs)

/-- Closes all entries. A class path that was closed stays as it is. -/
def close (cp : Classpath) (fs : FileSystem) : Classpath × FileSystem :=
  if cp.isClosed then (cp, fs)
  else
    let (entries, fs) := closeEntries cp.entries fs
    ({ cp with entries, isClosed := true }, fs)

/-- Opens a class path, and gives up at the first element that cannot be used. The entries from before are
closed then. -/
def openStrictFrom (settings : Settings) : Opening → List Path → Except OpenFault Classpath × FileSystem
  | o, [] => (.ok o.classpath, o.files)
  | o, p :: more =>
    match o.add settings p with
    | (none, o) => openStrictFrom settings o more
    | (some fault, o) => (.error fault, (o.classpath.close o.files).2)

/-- Opens a class path all of whose elements can be used. -/
def openStrict (settings : Settings) (text : List Char) (fs : FileSystem) :
    Except OpenFault Classpath × FileSystem :=
  openStrictFrom settings (.start fs) (elements settings text)

/-! ### Enumeration -/

/-- The names of all entries, in the order in which they are given out. -/
def names (cp : Classpath) : List String := cp.entries.flatMap fun e => e.listing.all

/-- Whether a name is ahead. -/
def hasNext (cp : Classpath) : Bool := !cp.isClosed && cp.entries.any (·.hasNext)

/-- The next name of some entries. -/
def nextOf? : List Entry → Option (String × List Entry)
  | [] => none
  | e :: more =>
    match e.next? with
    | some (name, e) => some (name, e :: more)
    | none => (nextOf? more).map fun (name, more) => (name, e :: more)

/-- The next name. -/
def next? (cp : Classpath) : Option (String × Classpath) :=
  if cp.isClosed then none
  else (nextOf? cp.entries).map fun (name, entries) => (name, { cp with entries })

/-- The class path before any name was given out. -/
def rewind (cp : Classpath) : Classpath := { cp with entries := cp.entries.map Entry.rewind }

/-! ### Lookup -/

/-- What the first entry that has something has for the name of a class. -/
def find (cp : Classpath) (fs : FileSystem) (name : String) : Except LookupFault Found :=
  firstHit (fun e => e.find fs name) name cp.entries

/-- The description of a class. -/
def describe (cp : Classpath) (fs : FileSystem) (name : String) : Except LookupFault ClassDescription :=
  match cp.find fs name with
  | .ok found => found.describe
  | .error fault => .error fault

/-- How well a class is known. -/
def presence (cp : Classpath) (fs : FileSystem) (name : String) : Presence :=
  match cp.find fs name with
  | .error _ => .notFound
  | .ok found =>
    match found.describe with
    | .ok _ => .description
    | .error _ => .bytecodeOnly

/-- The modules that some entries describe, one behind another. -/
def modulesOf (fs : FileSystem) : List Entry → Except LookupFault (List ModuleDescription)
  | [] => .ok []
  | e :: more =>
    match e.modules fs with
    | .error fault => .error fault
    | .ok ms =>
      match modulesOf fs more with
      | .error fault => .error fault
      | .ok others => .ok (ms ++ others)

/-- Keeps the first module of each name. -/
def firstModules : List ModuleDescription → List ModuleDescription
  | [] => []
  | m :: more => m :: (firstModules more).filter (·.name != m.name)

/-- The modules that are described, each name once. -/
def modules (cp : Classpath) (fs : FileSystem) : Except LookupFault (List ModuleDescription) :=
  (modulesOf fs cp.entries).map firstModules

/-! ### Laws -/

/-- Going back gives out the same names. -/
theorem names_rewind (cp : Classpath) : cp.rewind.names = cp.names := by
  simp [names, rewind, List.flatMap_map, Entry.rewind]

/-- A class path that was closed gives out no names. -/
theorem next?_close (cp : Classpath) (fs : FileSystem) : (cp.close fs).1.next? = none := by
  unfold close
  split
  · rename_i closed
    simp [next?, closed]
  · simp [next?]

end Classpath

end ApiSurface
