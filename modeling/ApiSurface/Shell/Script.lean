import ApiSurface.Shell.Command
import ApiSurface.Shell.Utility
import ApiSurface.Text.Utf8

/-!
Running scripts. A script runs with words that it was given, and its commands change files and write to the
two outputs; what goes to the usual output of the script itself is not kept. A script ends with the
status of the command that ran last, or that it asks for. Main statement: a script that has ended does nothing
more (`run_of_ended`).
-/

namespace ApiSurface.Shell

open ApiSurface.Text

/-- Where bytes go. -/
inductive Sink where
  | nowhere
  | errors
  | file (place : List (List Char))
  deriving DecidableEq, Repr

/-- Where the usual output and the output of errors go. -/
structure Sinks where
  output : Sink
  errors : Sink
  deriving DecidableEq, Repr

/-- A script that runs. -/
structure Session where
  /-- How the script was called. -/
  name : List Char
  arguments : List (List Char)
  bindings : List (List Char × List Char)
  files : FileSystem
  /-- What was written to the output of errors. -/
  errors : List UInt8
  /-- The status of the command that ran last. -/
  status : Nat
  /-- How long the script ran, in milliseconds. -/
  time : Nat
  /-- Whether a command that fails ends the script. -/
  isStrict : Bool
  ended : Bool

namespace Session

/-! ### Words -/

/-- The value of a parameter. -/
def value (s : Session) (name : List Char) : List Char :=
  match name with
  | ['?'] => decimal s.status
  | ['#'] => decimal s.arguments.length
  | ['@'] | ['*'] => join [' '] s.arguments
  | ['0'] => s.name
  | _ =>
    match readNatural? 10 name with
    | some n => (s.arguments[n - 1]?).getD []
    | none => (s.bindings.lookup name).getD []

/-- Words that are being built: those that are done, and the one that goes on, if there is one. -/
abbrev Fields := List (List Char) × Option (List Char)

/-- The words with characters added to the last one. -/
def addText (f : Fields) (cs : List Char) : Fields := (f.1, some (f.2.getD [] ++ cs))

/-- The words with one more character of a value, at which a blank ends a word. -/
def addValueChar (f : Fields) (c : Char) : Fields :=
  if c = ' ' ∨ c = '\t' ∨ c = '\n' then (f.1 ++ f.2.toList, none) else addText f [c]

/-- The words with one more piece. -/
def addPiece (s : Session) (f : Fields) : Piece → Fields
  | .plain c => addText f [c]
  | .quoted cs => addText f cs
  | .parameter ['@'] true =>
    match s.arguments with
    | [] => f
    | first :: others =>
      let f := addText f first
      others.foldl (fun f argument => (f.1 ++ f.2.toList, some argument)) f
  | .parameter name true => addText f (s.value name)
  | .parameter name false => (s.value name).foldl addValueChar f

/-- The words that a word stands for. -/
def expand (s : Session) (w : Word) : List (List Char) :=
  let f := w.foldl (addPiece s) ([], none)
  f.1 ++ f.2.toList

/-- The text of a word that is not cut. -/
def expandWhole (s : Session) (w : Word) : List Char := join [' '] (s.expand w)

/-- The variable and the value of a word that sets one. -/
def assignment? : Word → Option (List Char × Word)
  | .plain '=' :: value => some ([], value)
  | .plain c :: more =>
    if isNameChar c then (assignment? more).map fun (name, value) => (c :: name, value) else none
  | _ => none

/-- Sets the variables that words set before anything else, and gives the other words. -/
def assign (s : Session) : List Word → Session × List Word
  | [] => (s, [])
  | w :: more =>
    match assignment? w with
    | some (c :: name, value) =>
      if c.isDigit then (s, w :: more)
      else assign { s with bindings := (c :: name, s.expandWhole value) :: s.bindings } more
    | _ => (s, w :: more)

/-! ### Output -/

/-- The script after bytes went to a sink. -/
def emit (s : Session) (sink : Sink) (bytes : List UInt8) : Session :=
  match sink with
  | .nowhere => s
  | .errors => { s with errors := s.errors ++ bytes }
  | .file place =>
    match s.files.root.get? place with
    | some (.file old executable) =>
      { s with files := s.files.putAt place (.file (old ++ bytes) executable) }
    | _ => s

/-- The script after a message about a line of it. -/
def complain (s : Session) (sinks : Sinks) (line status : Nat) (text : List Char) : Session :=
  let lead := s.name ++ ": ".toList ++ decimal line ++ ": ".toList
  { s.emit sinks.errors (Outcome.bytesOf (lead ++ text ++ ['\n'])) with status }

/-- The file that discards all that is written to it. -/
def nullFile : Path := "/dev/null".toList

/-- Opens what a redirection leads to. -/
def openSink (s : Session) (sinks : Sinks) (target : Target) : Except (List Char) (Sink × Session) :=
  match target with
  | .stream n => .ok (if n = 2 then sinks.errors else sinks.output, s)
  | .file w isAppended =>
    let p := s.expandWhole w
    if p = nullFile then .ok (.nowhere, s)
    else
      let refused (why : String) : List Char := "cannot create ".toList ++ p ++ (": " ++ why).toList
      match s.files.find p, s.files.placeFor p with
      | .ok (.directory _), _ => .error (refused FileFault.isDirectory.words)
      | .ok (.file bytes executable), .ok place =>
        let bytes := if isAppended then bytes else []
        .ok (.file place, { s with files := s.files.putAt place (.file bytes executable) })
      | .error _, .ok place =>
        .ok (.file place, { s with files := s.files.putAt place (.file [] false) })
      | _, .error .notFound => .error (refused "Directory nonexistent")
      | _, .error fault => .error (refused fault.words)

/-- Opens what redirections lead to. -/
def openSinks : Session → Sinks → List Redirection → Except (List Char) (Sinks × Session)
  | s, sinks, [] => .ok (sinks, s)
  | s, sinks, r :: more =>
    match s.openSink sinks r.target with
    | .error text => .error text
    | .ok (sink, s) =>
      openSinks s (if r.stream = 2 then { sinks with errors := sink }
        else if r.stream = 1 then { sinks with output := sink } else sinks) more

/-! ### Commands -/

/-- The script after a utility ran. -/
def absorb (s : Session) (sinks : Sinks) (o : Outcome) : Session :=
  let s := { s with files := o.files, status := o.status, time := s.time + o.time }
  (s.emit sinks.output o.output).emit sinks.errors o.errors

/-- Ends the script. -/
def finish (s : Session) : Session := { s with ended := true }

/-- Ends the script with a status that a word tells. -/
def exit (s : Session) (sinks : Sinks) (line : Nat) : List (List Char) → Session
  | [] => s.finish
  | word :: _ =>
    match readDigits? 10 0 word with
    | some n => if word.isEmpty then s.finish else { s.finish with status := n % 256 }
    | none => (s.complain sinks line 2 ("exit: Illegal number: ".toList ++ word)).finish

/-- The script in another directory. -/
def changeDirectory (s : Session) (sinks : Sinks) (line : Nat) (p : Path) : Session :=
  match s.files.isDirectory p, s.files.locate p with
  | true, .ok place => { s with files := { s.files with current := place }, status := 0 }
  | _, _ => s.complain sinks line 2 ("cd: can't cd to ".toList ++ p)

/-- Runs a utility, or one of the commands that change the script itself. -/
def call (s : Session) (sinks : Sinks) (line : Nat) (name : List Char) (words : List (List Char)) :
    Session :=
  match String.ofList name with
  | "exit" => s.exit sinks line words
  | "cd" => s.changeDirectory sinks line (words.headD [])
  | "shift" => { s with arguments := s.arguments.drop 1, status := 0 }
  | "set" =>
    { s with isStrict := s.isStrict || words.any (fun w => w.head? == some '-' && w.contains 'e')
             status := 0 }
  | _ =>
    match utility? name with
    | some run => s.absorb sinks (run words s.files)
    | none => s.complain sinks line 127 (name ++ ": not found".toList)

/-- Runs the words of a simple command. A command can take the place of the script. -/
def callWords (s : Session) (sinks : Sinks) (line : Nat) : List (List Char) → Session
  | [] => { s with status := 0 }
  | ['e', 'x', 'e', 'c'] :: [] => { s with status := 0 }
  | ['e', 'x', 'e', 'c'] :: name :: words => (s.call sinks line name words).finish
  | name :: words => s.call sinks line name words

/-- Ends a strict script whose last command failed, unless the status is tested. -/
def check (s : Session) (isTested : Bool) : Session :=
  if s.isStrict ∧ !isTested ∧ s.status ≠ 0 then s.finish else s

/-- Runs a command whose status is tested or not. -/
def run : Command → Session → Sinks → Bool → Session
  | .nothing, s, _, _ => s
  | .simple line words redirections, s, sinks, isTested =>
    if s.ended then s
    else
      match s.openSinks sinks redirections with
      | .error text => (s.complain sinks line 2 text).check isTested
      | .ok (sinks, s) =>
        let (s, words) := s.assign words
        (s.callWords sinks line (words.flatMap s.expand)).check isTested
  | .sequence first rest, s, sinks, isTested => run rest (run first s sinks isTested) sinks isTested
  | .both first second, s, sinks, isTested =>
    let s := run first s sinks true
    if s.ended ∨ s.status ≠ 0 then s else run second s sinks isTested
  | .either first second, s, sinks, isTested =>
    let s := run first s sinks true
    if s.ended ∨ s.status = 0 then s else run second s sinks isTested
  | .negated command, s, sinks, _ =>
    let s := run command s sinks true
    if s.ended then s else { s with status := if s.status = 0 then 1 else 0 }
  | .group command redirections, s, sinks, isTested =>
    if s.ended then s
    else
      match s.openSinks sinks redirections with
      | .error text => (s.complain sinks 0 2 text).check isTested
      | .ok (sinks, s) => run command s sinks isTested
  | .choice test yes no, s, sinks, isTested =>
    let s := run test s sinks true
    if s.ended then s
    else if s.status = 0 then run yes { s with status := 0 } sinks isTested
    else run no { s with status := 0 } sinks isTested

/-- A script that has ended does nothing more. -/
theorem run_of_ended (command : Command) {s : Session} (ended : s.ended = true) (sinks : Sinks)
    (isTested : Bool) : run command s sinks isTested = s := by
  induction command generalizing isTested with
  | nothing => rfl
  | simple line words redirections => simp [run, ended]
  | sequence first rest ihFirst ihRest => simp [run, ihFirst, ihRest]
  | both first second ihFirst => simp [run, ihFirst, ended]
  | either first second ihFirst => simp [run, ihFirst, ended]
  | negated command ih => simp [run, ih, ended]
  | group command redirections => simp [run, ended]
  | choice test yes no ihTest => simp [run, ihTest, ended]

end Session

/-! ### Programs -/

/-- How a program ended. -/
structure Ending where
  status : Nat
  errors : List UInt8
  files : FileSystem
  /-- How long it ran, in milliseconds. -/
  time : Nat

/-- Directories of programs. -/
def programPlaces : List (List Char) :=
  ["", "/bin/", "/usr/bin/", "/usr/local/bin/"].map String.toList

/-- Whether a path names a program of one of these names. -/
def isProgram (names : List String) (p : Path) : Bool :=
  programPlaces.any fun place => names.any fun name => place ++ name.toList == p

/-- Programs that run scripts. -/
def interpreters : List String := ["sh", "dash", "bash"]

/-- The words behind the mark that begins a script. -/
def interpreterWords? (bytes : List UInt8) : Option (List (List Char)) :=
  let line := decodeDamaged (bytes.takeWhile (· != 10))
  (afterLead? "#!".toList line).map fun rest => (pieces ' ' rest).filter (!·.isEmpty)

/-- Whether scripts that begin with these words are strict, if they can run at all. A program can be looked
for by its bare name. -/
def strictness? (words : List (List Char)) : Option Bool :=
  let strict (options : List (List Char)) : Bool :=
    options.any fun o => o.head? == some '-' && o.contains 'e'
  match words with
  | program :: options =>
    if !program.contains '/' then none
    else if isProgram interpreters program then some (strict options)
    else
      match isProgram ["env"] program, options with
      | true, found :: options => if isProgram interpreters found then some (strict options) else none
      | _, _ => none
  | [] => none

/-- Runs a script with words. -/
def runScript (fs : FileSystem) (name : Path) (arguments : List (List Char)) (isStrict : Bool)
    (bytes : List UInt8) : Ending :=
  match Command.ofText? (decodeDamaged bytes) with
  | none => ⟨2, Outcome.bytesOf (name ++ ": Syntax error\n".toList), fs, 0⟩
  | some command =>
    let start : Session := ⟨name, arguments, [], fs, [], 0, 0, isStrict, false⟩
    let s := start.run command ⟨.nowhere, .errors⟩ false
    ⟨s.status, s.errors, { s.files with current := fs.current }, s.time⟩

/-- Runs the program that a path names. A path without a slash names a utility. -/
def runProgram (fs : FileSystem) (program : Path) (arguments : List (List Char)) : Except FileFault Ending :=
  match utilities.find? fun u => isProgram [u.1] program with
  | some (_, run) =>
    let o := run arguments fs
    .ok ⟨o.status, o.errors, o.files, o.time⟩
  | none =>
    if !program.contains '/' then .error .notFound
    else
      match fs.find program with
      | .error fault => .error fault
      | .ok (.directory _) => .error .permissionDenied
      | .ok (.file bytes executable) =>
        if !executable then .error .permissionDenied
        else
          match interpreterWords? bytes with
          | none => .error .notExecutable
          | some words =>
            match strictness? words with
            | none => .error .notFound
            | some isStrict => .ok (runScript fs program arguments isStrict bytes)

end ApiSurface.Shell
