import ApiSurface.Files.Tree
import ApiSurface.Text.Blank
import ApiSurface.Text.Numeral

/-!
The utilities that a script can run. A utility is given its words and the files, and leaves a status, what
it wrote, the files as they are then and the time that it took. Main statement: the utility that does
nothing leaves all files as they are (`files_nothing`).
-/

namespace ApiSurface.Shell

open ApiSurface.Text

/-- What a command leaves behind. -/
structure Outcome where
  status : Nat
  output : List UInt8
  errors : List UInt8
  files : FileSystem
  /-- How long it took, in milliseconds. -/
  time : Nat

namespace Outcome

/-- A command that does nothing, with a status. -/
def nothing (fs : FileSystem) (status : Nat) : Outcome := ⟨status, [], [], fs, 0⟩

/-- Bytes of a text. -/
def bytesOf (cs : List Char) : List UInt8 := cs.flatMap String.utf8EncodeChar

/-- A command that says what is wrong. -/
def fails (fs : FileSystem) (status : Nat) (text : List Char) : Outcome :=
  ⟨status, [], bytesOf (text ++ ['\n']), fs, 0⟩

/-- One command after another; the status is that of the last one that failed. -/
def andThen (first : Outcome) (second : FileSystem → Outcome) : Outcome :=
  let next := second first.files
  ⟨if next.status = 0 then first.status else next.status, first.output ++ next.output,
    first.errors ++ next.errors, next.files, first.time + next.time⟩

/-- A command for each of some words. -/
def forEach (step : FileSystem → List Char → Outcome) (words : List (List Char)) (fs : FileSystem) :
    Outcome :=
  words.foldl (fun done word => done.andThen fun fs => step fs word) (nothing fs 0)

theorem files_nothing (fs : FileSystem) (status : Nat) : (nothing fs status).files = fs := rfl

end Outcome

open Outcome

/-! ### Writing -/

/-- The byte that up to so many octal digits spell, and what comes behind. -/
def takeOctal : Nat → Nat → List Char → Nat × List Char
  | 0, value, cs => (value, cs)
  | _, value, [] => (value, [])
  | count + 1, value, c :: rest =>
    match digitValue? c with
    | some d => if d < 8 then takeOctal count (8 * value + d) rest else (value, c :: rest)
    | none => (value, c :: rest)

/-- The character that a backslash and a letter stand for. -/
def escaped? : Char → Option UInt8
  | 'a' => some 7
  | 'b' => some 8
  | 't' => some 9
  | 'n' => some 10
  | 'v' => some 11
  | 'f' => some 12
  | 'r' => some 13
  | '\\' => some 0x5C
  | _ => none

/-- The bytes of a text in which backslashes are read. A number has up to three octal digits, behind a zero
if that is asked for. -/
def unescape (zeroFirst : Bool) : Nat → List Char → List UInt8
  | 0, _ => []
  | _, [] => []
  | fuel + 1, '\\' :: c :: rest =>
    match escaped? c with
    | some byte => byte :: unescape zeroFirst fuel rest
    | none =>
      if zeroFirst ∧ c = '0' then
        let (value, rest) := takeOctal 3 0 rest
        UInt8.ofNat value :: unescape zeroFirst fuel rest
      else if !zeroFirst ∧ '0' ≤ c ∧ c ≤ '7' then
        let (value, rest) := takeOctal 3 0 (c :: rest)
        UInt8.ofNat value :: unescape zeroFirst fuel rest
      else if !zeroFirst ∧ (c = '"' ∨ c = '\'') then
        bytesOf [c] ++ unescape zeroFirst fuel rest
      else bytesOf ['\\', c] ++ unescape zeroFirst fuel rest
  | fuel + 1, c :: rest => bytesOf [c] ++ unescape zeroFirst fuel rest

/-- Writes words with spaces between and a line end, which can be left out. -/
def echo (words : List (List Char)) (fs : FileSystem) : Outcome :=
  let (words, lineEnd) := match words with
    | ['-', 'n'] :: words => (words, [])
    | words => (words, ['\n'])
  let text := join [' '] words ++ lineEnd
  { nothing fs 0 with output := unescape true text.length text }

/-- Writes a form in which marks stand for words. -/
def fillForm : Nat → List Char → List (List Char) → List UInt8 × List (List Char)
  | 0, _, words => ([], words)
  | _, [], words => ([], words)
  | fuel + 1, '%' :: c :: rest, words =>
    let written := match c with
      | '%' => ['%']
      | 's' | 'd' | 'b' | 'c' => words.headD (if c = 'd' then ['0'] else [])
      | _ => ['%', c]
    let bytes := if c = 'b' then unescape true written.length written
      else bytesOf (if c = 'c' then written.take 1 else written)
    let (more, left) := fillForm fuel rest (if "sdbc".toList.contains c then words.drop 1 else words)
    (bytes ++ more, left)
  | fuel + 1, '\\' :: c :: rest, words =>
    let cs := '\\' :: c :: rest
    let size := if '0' ≤ c ∧ c ≤ '7' then cs.length - (takeOctal 3 0 (c :: rest)).2.length else 2
    let (more, left) := fillForm fuel (cs.drop size) words
    (unescape false size (cs.take size) ++ more, left)
  | fuel + 1, c :: rest, words =>
    let (more, left) := fillForm fuel rest words
    (bytesOf [c] ++ more, left)

/-- Writes a form as often as it takes to use up all words. -/
def fillForms (form : List Char) : Nat → List (List Char) → List UInt8
  | 0, _ => []
  | fuel + 1, words =>
    let (bytes, left) := fillForm form.length form words
    if left.isEmpty ∨ left.length = words.length then bytes else bytes ++ fillForms form fuel left

/-- Writes words in a form. -/
def printForm (words : List (List Char)) (fs : FileSystem) : Outcome :=
  match words with
  | [] => fails fs 2 "printf: usage: printf format [arg ...]".toList
  | form :: words => { nothing fs 0 with output := fillForms form (words.length + 1) words }

/-! ### Tests -/

/-- Whether a number of words stands in a relation to another. -/
def compares? (relation : List Char) (a b : List Char) : Option Bool := do
  let holds ← ([("-eq", fun m n => m == n), ("-ne", fun m n => m != n), ("-lt", fun m n => m < n),
    ("-le", fun m n => m ≤ n), ("-gt", fun m n => n < m), ("-ge", fun m n => n ≤ m)] :
      List (String × (Nat → Nat → Bool))).lookup (String.ofList relation)
  return holds (← readNatural? 10 a) (← readNatural? 10 b)

/-- Whether a condition holds, if it is one. -/
def holds? (fs : FileSystem) : List (List Char) → Option Bool
  | [] => some false
  | [word] => some !word.isEmpty
  | [['!'], word] => some word.isEmpty
  | [['-', 'n'], word] => some !word.isEmpty
  | [['-', 'z'], word] => some word.isEmpty
  | [['-', 'e'], p] => some (fs.exists? p)
  | [['-', 'f'], p] => some (fs.isFile p)
  | [['-', 'd'], p] => some (fs.isDirectory p)
  | [['-', 'r'], p] => some (fs.exists? p)
  | [['-', 'w'], p] => some (fs.exists? p)
  | [['-', 's'], p] =>
    match fs.find p with
    | .ok (.file bytes _) => some !bytes.isEmpty
    | .ok (.directory _) => some true
    | .error _ => some false
  | [['-', 'x'], p] =>
    match fs.find p with
    | .ok (.file _ executable) => some executable
    | .ok (.directory _) => some true
    | .error _ => some false
  | [a, ['='], b] => some (a == b)
  | [a, ['!', '='], b] => some (a != b)
  | ['!'] :: more => (holds? fs more).map not
  | [a, relation, b] => compares? relation a b
  | _ => none

/-- Tests a condition. -/
def test (words : List (List Char)) (fs : FileSystem) : Outcome :=
  match holds? fs words with
  | some true => nothing fs 0
  | some false => nothing fs 1
  | none => fails fs 2 "test: unexpected operator".toList

/-! ### Files -/

/-- Words that are options, and those that are not. -/
def options (words : List (List Char)) : List Char × List (List Char) :=
  let isOption (word : List Char) : Bool := word.head? == some '-' && word != ['-']
  let front := words.takeWhile fun word => isOption word && word != ['-', '-']
  let rest := words.dropWhile fun word => isOption word && word != ['-', '-']
  ((front.map (·.drop 1)).flatten, if rest.head? = some ['-', '-'] then rest.drop 1 else rest)

/-- What is wrong with a path, as a utility says it. -/
def complaint (utility what : String) (p : Path) (fault : FileFault) : List Char :=
  (utility ++ ": " ++ what ++ " '").toList ++ p ++ ("': " ++ fault.words).toList

/-- Copies one file or tree into a place that a path names. -/
def copyTo (deep : Bool) (source target : Path) (fs : FileSystem) : Outcome :=
  match fs.find source with
  | .error fault => fails fs 1 (complaint "cp" "cannot stat" source fault)
  | .ok node =>
    if node.isDirectory ∧ !deep then
      fails fs 1 ("cp: -r not specified; omitting directory '".toList ++ source ++ ['\''])
    else
      match fs.find target, fs.placeFor target with
      | .ok old, .ok place =>
        if node.isDirectory ∧ !old.isDirectory then
          fails fs 1 ("cp: cannot overwrite non-directory '".toList ++ target ++
            "' with directory '".toList ++ source ++ ['\''])
        else if !node.isDirectory ∧ old.isDirectory then
          fails fs 1 ("cp: cannot overwrite directory '".toList ++ target ++
            "' with non-directory".toList)
        else nothing (fs.putAt place (node.laidOver old)) 0
      | .error _, .ok place => nothing (fs.putAt place node) 0
      | _, .error fault =>
        fails fs 1 (complaint "cp"
          (if node.isDirectory then "cannot create directory" else "cannot create regular file")
          target fault)

/-- The name that a copy gets in a directory. -/
def copyName (source : Path) : List Char :=
  let names := (pieces '/' source).filter fun name => !name.isEmpty
  names.getLast?.getD ['/']

/-- Copies files and trees. -/
def copy (words : List (List Char)) (fs : FileSystem) : Outcome :=
  let (flags, paths) := options words
  let deep := flags.any fun c => "rRa".toList.contains c
  match paths.getLast?, paths.dropLast with
  | none, _ => fails fs 1 "cp: missing file operand".toList
  | some only, [] =>
    fails fs 1 ("cp: missing destination file operand after '".toList ++ only ++ ['\''])
  | some target, sources =>
    if fs.isDirectory target then
      forEach (fun fs source => copyTo deep source (Path.join target (copyName source)) fs) sources fs
    else
      match sources with
      | [source] => copyTo deep source target fs
      | _ => fails fs 1 ("cp: target '".toList ++ target ++ "' is not a directory".toList)

/-- Makes one directory. -/
def makeDirectory (fs : FileSystem) (p : Path) : Outcome :=
  if fs.exists? p then
    fails fs 1 ("mkdir: cannot create directory '".toList ++ p ++ "': File exists".toList)
  else
    match fs.placeFor p with
    | .ok place => nothing (fs.putAt place .emptyDirectory) 0
    | .error fault => fails fs 1 (complaint "mkdir" "cannot create directory" p fault)

/-- The paths of the directories that lead to a path, the path last. -/
def waysTo (p : Path) : List Path :=
  let names := pieces '/' p
  ((List.range names.length).map fun n => join ['/'] (names.take (n + 1))).filter (!·.isEmpty)

/-- Makes directories. -/
def makeDirectories (words : List (List Char)) (fs : FileSystem) : Outcome :=
  let (flags, paths) := options words
  if flags.contains 'p' then
    forEach (fun fs p => forEach (fun fs way =>
      if fs.isDirectory way then nothing fs 0 else makeDirectory fs way) (waysTo p) fs) paths fs
  else forEach makeDirectory paths fs

/-- Makes files that are not there. -/
def touch (words : List (List Char)) (fs : FileSystem) : Outcome :=
  forEach (fun fs p =>
    if fs.exists? p then nothing fs 0
    else
      match fs.placeFor p with
      | .ok place => nothing (fs.putAt place (.file [] false)) 0
      | .error fault => fails fs 1 (complaint "touch" "cannot touch" p fault)) words fs

/-- Removes files, and trees if that is asked for. -/
def removeFiles (words : List (List Char)) (fs : FileSystem) : Outcome :=
  let (flags, paths) := options words
  let deep := flags.any fun c => "rR".toList.contains c
  forEach (fun fs p =>
    match fs.find p with
    | .error fault =>
      if flags.contains 'f' then nothing fs 0 else fails fs 1 (complaint "rm" "cannot remove" p fault)
    | .ok node =>
      if node.isDirectory ∧ !deep then fails fs 1 (complaint "rm" "cannot remove" p .isDirectory)
      else nothing (fs.remove p) 0) paths fs

/-- Writes the contents of files. -/
def concatenate (words : List (List Char)) (fs : FileSystem) : Outcome :=
  forEach (fun fs p =>
    match fs.read p with
    | .ok bytes => { nothing fs 0 with output := bytes }
    | .error fault => fails fs 1 ("cat: ".toList ++ p ++ (": " ++ fault.words).toList)) words fs

/-! ### Time -/

/-- The milliseconds in a number of seconds, which can have places after a point. -/
def milliseconds? (cs : List Char) : Option Nat :=
  let (whole, fraction) := cutBefore (· == '.') cs
  let places := (fraction.drop 1 ++ "000".toList).take 3
  match readDigits? 10 0 whole, readDigits? 10 0 places with
  | some seconds, some thousandths => some (1000 * seconds + thousandths)
  | _, _ => none

/-- Waits. -/
def sleep (words : List (List Char)) (fs : FileSystem) : Outcome :=
  match words with
  | [word] =>
    match milliseconds? word with
    | some time => { nothing fs 0 with time }
    | none => fails fs 1 ("sleep: invalid time interval '".toList ++ word ++ ['\''])
  | _ => fails fs 1 "sleep: missing operand".toList

/-! ### All utilities -/

/-- The utilities by name. -/
def utilities : List (String × (List (List Char) → FileSystem → Outcome)) :=
  [("true", fun _ fs => nothing fs 0), (":", fun _ fs => nothing fs 0), ("false", fun _ fs => nothing fs 1),
    ("echo", echo), ("printf", printForm), ("test", test), ("cp", copy), ("mkdir", makeDirectories),
    ("touch", touch), ("rm", removeFiles), ("cat", concatenate), ("sleep", sleep)]

/-- The utility of a name. -/
def utility? (name : List Char) : Option (List (List Char) → FileSystem → Outcome) :=
  if name = ['['] then
    some fun words fs =>
      if words.getLast? = some [']'] then test words.dropLast fs
      else fails fs 2 "[: missing ]".toList
  else utilities.lookup (String.ofList name)

end ApiSurface.Shell
