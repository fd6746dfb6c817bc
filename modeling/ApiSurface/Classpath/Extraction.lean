import ApiSurface.Settings
import ApiSurface.Shell.Script
import ApiSurface.SignatureFile.Reader
import ApiSurface.Text.Blank
import ApiSurface.Text.Numeral

/-!
Extracting a module image. A tool is called with the image and a directory, into which it puts a directory
of classes for each module. While it runs, it is looked at again and again. Main statement: a tool without a
time limit is never stopped (`extract_ne_tooSlow`).
-/

namespace ApiSurface

open ApiSurface.Text

/-- Why an image is not extracted. -/
inductive ToolFault where
  | notStarted (tool : Path) (fault : FileFault)
  /-- The tool failed with a status, and said this. -/
  | failed (status : Nat) (image : Path) (said : List Char)
  /-- The tool took longer than so many milliseconds. -/
  | tooSlow (limit : Nat) (image : Path)
  /-- What the tool said is no text. -/
  | undecodable
  deriving DecidableEq, Repr

/-- A number of milliseconds, in seconds if there is a whole one. -/
def durationText (time : Nat) : List Char :=
  let thousandths := (decimal (1000 + time % 1000)).drop 1
  let places := (thousandths.reverse.dropWhile (· == '0')).reverse
  if time = 0 then "0ns".toList
  else if time < 1000 then decimal time ++ "ms".toList
  else decimal (time / 1000) ++ (if places.isEmpty then [] else '.' :: places) ++ ['s']

/-- What messages about the tool begin with. -/
def toolLead : String := "jimage failed: "

/-- The fault in words. -/
def ToolFault.message : ToolFault → String
  | .notStarted tool fault =>
    toolLead ++ String.ofList ("failed to start ".toList ++ tool ++ ": ".toList) ++ fault.message
  | .failed status image said =>
    toolLead ++ String.ofList ("exit status: ".toList ++ decimal status ++ " while extracting ".toList ++
      image ++ ": ".toList ++ said)
  | .tooSlow limit image =>
    toolLead ++ String.ofList ("timed out after ".toList ++ durationText limit ++ " extracting ".toList ++
      image)
  | .undecodable => ReadError.undecodable.fullMessage

/-- How long it takes until a tool that runs is looked at again, in milliseconds. -/
def lookInterval : Nat := 50

/-- Whether a tool that ran so long was seen running when its time was up. -/
def isTooSlow (limit time : Nat) : Bool :=
  (limit + (lookInterval - 1)) / lookInterval ≤ time / lookInterval

/-- Extracts an image into a directory. -/
def extract (tool : Path) (limit : Option Nat) (image target : Path) (fs : FileSystem) :
    Except ToolFault Unit × FileSystem :=
  match Shell.runProgram fs tool ["extract".toList, "--dir".toList, target, image] with
  | .error fault => (.error (.notStarted tool fault), fs)
  | .ok ending =>
    match limit.filter (isTooSlow · ending.time) with
    | some limit => (.error (.tooSlow limit image), ending.files)
    | none =>
      if ending.status = 0 then (.ok (), ending.files)
      else
        match decodeUtf8? ending.errors with
        | none => (.error .undecodable, ending.files)
        | some said => (.error (.failed ending.status image (trim said)), ending.files)

/-- A tool without a time limit is never stopped. -/
theorem extract_ne_tooSlow (tool image target : Path) (fs : FileSystem) (limit : Nat) :
    (extract tool none image target fs).1 ≠ .error (.tooSlow limit image) := by
  unfold extract
  split
  · simp
  · simp only [Option.filter_none]
    split
    · simp
    · split <;> simp

end ApiSurface
