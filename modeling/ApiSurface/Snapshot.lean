import ApiSurface.Classpath.Basic
import ApiSurface.SignatureFile.Writer

/-!
Capturing a class path in a signature file: the header, the modules if the file can hold them, and the
classes in the order in which the class path gives out their names. What cannot be described is left out
and noted. Main statement: if no name is ahead, no class is written (`captureClasses_of_no_next`).
-/

namespace ApiSurface

/-- What was captured. -/
structure Snapshot where
  modulesWritten : Nat
  classesWritten : Nat
  /-- What was left out, and why. -/
  skipped : List (String × LookupFault)

/-- A class path that is being captured. -/
structure Capture where
  classpath : Classpath
  writer : Writer
  text : List Char
  snapshot : Snapshot

namespace Capture

/-- What stands for the modules among what was left out. -/
def modulesName : String := "<modules>"

/-- Writes a description. A text that is written in part stays written. -/
def write (c : Capture) (d : ClassDescription) : Except WriteError Unit × Capture :=
  let (text, result, writer) := c.writer.writeClass d
  (result, { c with text := c.text ++ text, writer })

/-- Writes modules. -/
def writeModules : Capture → List ModuleDescription → Except WriteError Unit × Capture
  | c, [] => (.ok (), c)
  | c, m :: more =>
    match c.write (.ofModule m) with
    | (.error e, c) => (.error e, c)
    | (.ok (), c) =>
      writeModules { c with snapshot := { c.snapshot with
        modulesWritten := c.snapshot.modulesWritten + 1 } } more

/-- Notes that something was left out. -/
def skip (c : Capture) (name : String) (fault : LookupFault) : Capture :=
  { c with snapshot := { c.snapshot with skipped := c.snapshot.skipped ++ [(name, fault)] } }

/-- Captures the modules, if the file can hold them. -/
def captureModules (fs : FileSystem) (c : Capture) : Except WriteError Unit × Capture :=
  if c.writer.hasFeature .moduleInfo then
    match c.classpath.modules fs with
    | .ok ms => c.writeModules ms
    | .error fault => (.ok (), c.skip modulesName fault)
  else (.ok (), c)

/-- Captures at most `limit` classes whose names are ahead. -/
def captureClasses (fs : FileSystem) : Nat → Capture → Except WriteError Unit × Capture
  | 0, c => (.ok (), c)
  | limit + 1, c =>
    match c.classpath.next? with
    | none => (.ok (), c)
    | some (name, classpath) =>
      let c := { c with classpath }
      match classpath.describe fs name with
      | .error fault => captureClasses fs limit (c.skip name fault)
      | .ok d =>
        match c.write d with
        | (.error e, c) => (.error e, c)
        | (.ok (), c) =>
          captureClasses fs limit { c with snapshot := { c.snapshot with
            classesWritten := c.snapshot.classesWritten + 1 } }

/-- If no name is ahead, no class is written. -/
theorem captureClasses_of_no_next {fs : FileSystem} {c : Capture} (done : c.classpath.next? = none)
    (limit : Nat) : captureClasses fs limit c = (.ok (), c) := by
  cases limit with
  | zero => rfl
  | succ limit => simp [captureClasses, done]

end Capture

/-- Captures all of a class path with a writer. -/
def Classpath.capture (cp : Classpath) (fs : FileSystem) (w : Writer) : Except WriteError Unit × Capture :=
  let (text, w) := w.writeHeader
  match Capture.captureModules fs ⟨cp, w, text, ⟨0, 0, []⟩⟩ with
  | (.error e, c) => (.error e, c)
  | (.ok (), c) =>
    Capture.captureClasses fs cp.names.length { c with classpath := c.classpath.rewind }

end ApiSurface
