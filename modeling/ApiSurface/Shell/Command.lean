import ApiSurface.Text.Basic

/-!
The command language of scripts. A script is cut into tokens: words, operators and redirections. Words are
built of pieces, of which parameters are replaced when the command runs. Commands are put together by
operators, braces and choices. Main statement: text between single quotes stands for itself
(`takeWord_single`).
-/

namespace ApiSurface.Shell

open ApiSurface.Text

/-! ### Words -/

/-- A piece of a word. -/
inductive Piece where
  | plain (c : Char)
  | quoted (cs : List Char)
  /-- The value of a parameter. Outside quotes it is cut at blanks. -/
  | parameter (name : List Char) (isQuoted : Bool)
  deriving DecidableEq, Repr

/-- A word. -/
abbrev Word := List Piece

/-- The text of a word that has no quotes and no parameters. -/
def plainText? : Word → Option (List Char)
  | [] => some []
  | .plain c :: more => (plainText? more).map (c :: ·)
  | _ :: _ => none

/-- Characters that end a word. -/
def endsWord (c : Char) : Bool := " \t\n;&|<>()".toList.contains c

/-- Characters that can stand in the name of a variable. -/
def isNameChar (c : Char) : Bool := c.isAlphanum || c == '_'

/-- Takes the name of a parameter. -/
def takeParameter? : List Char → Option (List Char × List Char)
  | '{' :: rest =>
    match cutAt? ['}'] rest with
    | some (name, rest) => if name.isEmpty then none else some (name, rest)
    | none => none
  | c :: rest =>
    if c.isDigit ∨ "@*#?".toList.contains c then some ([c], rest)
    else if isNameChar c then some (cutBefore (!isNameChar ·) (c :: rest)) else none
  | [] => none

/-- The character that begins a command in a word. -/
def backquote : Char := '\x60'

/-- Takes what stands between double quotes, and the quote at the end. -/
def takeQuoted : Nat → List Char → Option (Word × List Char)
  | 0, _ => none
  | _, [] => none
  | fuel + 1, c :: rest =>
    let after (piece : Piece) (rest : List Char) : Option (Word × List Char) :=
      (takeQuoted fuel rest).map fun (word, rest) => (piece :: word, rest)
    match c, rest with
    | '"', rest => some ([], rest)
    | '\\', '\n' :: rest => takeQuoted fuel rest
    | '\\', c :: rest =>
      after (.quoted (if ['"', '\\', '$', backquote].contains c then [c] else ['\\', c])) rest
    | '$', rest =>
      match takeParameter? rest with
      | some (name, rest) => after (.parameter name true) rest
      | none => after (.quoted ['$']) rest
    | c, rest => after (.quoted [c]) rest

/-- Takes a word. -/
def takeWord : Nat → List Char → Option (Word × List Char)
  | 0, _ => none
  | _, [] => some ([], [])
  | fuel + 1, c :: rest =>
    let after (pieces : Word) (rest : List Char) : Option (Word × List Char) :=
      (takeWord fuel rest).map fun (word, rest) => (pieces ++ word, rest)
    match c, rest with
    | '\'', rest =>
      match cutAt? ['\''] rest with
      | some (inside, rest) => after [.quoted inside] rest
      | none => none
    | '"', rest =>
      match takeQuoted fuel rest with
      | some (word, rest) => after (.quoted [] :: word) rest
      | none => none
    | '\\', '\n' :: rest => after [] rest
    | '\\', c :: rest => after [.quoted [c]] rest
    | '$', rest =>
      match takeParameter? rest with
      | some (name, rest) => after [.parameter name false] rest
      | none => after [.plain '$'] rest
    | c, rest => if endsWord c then some ([], c :: rest) else after [.plain c] rest

/-- Text between single quotes stands for itself. -/
theorem takeWord_single {fuel : Nat} {cs inside rest : List Char}
    (cut : cutAt? ['\''] cs = some (inside, rest)) :
    takeWord (fuel + 1) ('\'' :: cs) =
      (takeWord fuel rest).map fun (word, rest) => (.quoted inside :: word, rest) := by
  simp [takeWord, cut]

/-! ### Tokens -/

/-- What commands are built of. -/
inductive Token where
  /-- A word, with the number of its line. -/
  | word (line : Nat) (w : Word)
  /-- A mark between commands, or a line end. -/
  | mark (cs : List Char)
  /-- A redirection of an output to where the next word or number tells. -/
  | redirect (stream : Nat) (cs : List Char)
  deriving DecidableEq, Repr

/-- Marks between commands, longer ones first. -/
def marks : List (List Char) := [";".toList, "&&".toList, "||".toList]

/-- The text behind a mark that it begins with. -/
def takeMark? (cs : List Char) : Option (List Char × List Char) :=
  marks.findSome? fun m => (afterLead? m cs).map fun rest => (m, rest)

/-- Marks of redirections, longer ones first. -/
def redirects : List (List Char) := [">>".toList, ">&".toList, ">".toList, "<".toList]

/-- A redirection that a text begins with. Without a number it is that of the usual stream. -/
def takeRedirect? (cs : List Char) : Option (Nat × List Char × List Char) :=
  let (stream, cs) := match cs with
    | '0' :: rest => (some 0, rest)
    | '1' :: rest => (some 1, rest)
    | '2' :: rest => (some 2, rest)
    | cs => (none, cs)
  redirects.findSome? fun m =>
    (afterLead? m cs).map fun rest => (stream.getD (if m = ['<'] then 0 else 1), m, rest)

/-- Cuts a script into tokens. -/
def tokens : Nat → Nat → List Char → Option (List Token)
  | 0, _, _ => none
  | _, _, [] => some []
  | fuel + 1, line, c :: rest =>
    if c = '\n' then (tokens fuel (line + 1) rest).map (.mark ['\n'] :: ·)
    else if c = ' ' ∨ c = '\t' then tokens fuel line rest
    else if c = '#' then tokens fuel line (rest.dropWhile (· != '\n'))
    else
      match takeMark? (c :: rest) with
      | some (m, rest) => (tokens fuel line rest).map (.mark m :: ·)
      | none =>
        match takeRedirect? (c :: rest) with
        | some (stream, m, rest) => (tokens fuel line rest).map (.redirect stream m :: ·)
        | none =>
          if endsWord c then none
          else
            match takeWord (fuel + 1) (c :: rest) with
            | some (w, rest) => (tokens fuel line rest).map (.word line w :: ·)
            | none => none

/-! ### Commands -/

/-- Where an output goes. -/
inductive Target where
  /-- To where the output of this number goes. -/
  | stream (n : Nat)
  | file (w : Word) (isAppended : Bool)
  deriving DecidableEq, Repr

/-- An output with the place where it goes. -/
structure Redirection where
  stream : Nat
  target : Target
  deriving DecidableEq, Repr

/-- A command. -/
inductive Command where
  | nothing
  /-- Words, the first of which names what to run, on a line of the script. -/
  | simple (line : Nat) (words : List Word) (redirections : List Redirection)
  | sequence (first rest : Command)
  /-- The second command runs only if the first one succeeds. -/
  | both (first second : Command)
  /-- The second command runs only if the first one fails. -/
  | either (first second : Command)
  | negated (command : Command)
  | group (command : Command) (redirections : List Redirection)
  | choice (test yes no : Command)
  deriving DecidableEq, Repr

/-- Words that stand for themselves where a command begins. -/
def reserved : List (List Char) :=
  ["\x7b", "\x7d", "!", "if", "then", "elif", "else", "fi", "while", "until", "for", "do", "done", "case",
    "esac"].map String.toList

/-- The reserved word that tokens begin with. -/
def reservedWord? : List Token → Option (List Char)
  | .word _ w :: _ =>
    match plainText? w with
    | some text => if reserved.contains text then some text else none
    | none => none
  | _ => none

/-- Takes a reserved word. -/
def takeReserved? (text : String) (ts : List Token) : Option (List Token) :=
  if reservedWord? ts = some text.toList then some (ts.drop 1) else none

/-- Where a redirection leads. -/
def redirection (stream : Nat) (mark : List Char) (w : Word) : Option (Option Redirection) :=
  if mark = ['<'] then some none
  else if mark = ">&".toList then
    match plainText? w with
    | some ['1'] => some (some ⟨stream, .stream 1⟩)
    | some ['2'] => some (some ⟨stream, .stream 2⟩)
    | _ => none
  else some (some ⟨stream, .file w (mark == ">>".toList)⟩)

/-- Takes the redirections behind a command. -/
def takeRedirections : List Token → Option (List Redirection × List Token)
  | .redirect stream mark :: .word _ w :: more =>
    match redirection stream mark w, takeRedirections more with
    | some r, some (others, rest) => some (r.toList ++ others, rest)
    | _, _ => none
  | .redirect .. :: _ => none
  | ts => some ([], ts)

/-- Takes the words and redirections of a simple command. -/
def takeSimple : List Token → Option (List Word × List Redirection × List Token)
  | .redirect stream mark :: .word _ w :: more =>
    match redirection stream mark w, takeSimple more with
    | some r, some (words, others, rest) => some (words, r.toList ++ others, rest)
    | _, _ => none
  | .redirect .. :: _ => none
  | .word _ w :: more =>
    (takeSimple more).map fun (words, others, rest) => (w :: words, others, rest)
  | ts => some ([], [], ts)

/-- Drops line ends. -/
def dropLineEnds (ts : List Token) : List Token := ts.dropWhile (· == .mark ['\n'])

/-- Drops line ends and semicolons. -/
def dropEnds (ts : List Token) : List Token := ts.dropWhile fun t => t == .mark ['\n'] || t == .mark [';']

/-- The line on which tokens begin. -/
def lineOf : List Token → Nat
  | .word line _ :: _ => line
  | _ :: more => lineOf more
  | [] => 0

mutual

/-- Takes commands up to a reserved word that cannot begin one. -/
def takeList : Nat → List Token → Option (Command × List Token)
  | 0, _ => none
  | fuel + 1, ts =>
    let ts := dropEnds ts
    match reservedWord? ts with
    | some word =>
      if ["\x7b".toList, "!".toList, "if".toList].contains word then takeSequence fuel ts
      else some (.nothing, ts)
    | none => if ts.isEmpty then some (.nothing, []) else takeSequence fuel ts

/-- Takes a chain of commands and the commands that follow. -/
def takeSequence : Nat → List Token → Option (Command × List Token)
  | 0, _ => none
  | fuel + 1, ts => do
    let (first, ts) ← takeCommand fuel ts
    let (chain, ts) ← takeChain fuel first ts
    match ts with
    | [] => return (chain, [])
    | .mark _ :: _ =>
      let (others, ts) ← takeList fuel ts
      return (.sequence chain others, ts)
    | _ => none

/-- Takes what is chained to a command. -/
def takeChain : Nat → Command → List Token → Option (Command × List Token)
  | 0, _, _ => none
  | fuel + 1, first, ts =>
    let chained (join : Command → Command → Command) (ts : List Token) :
        Option (Command × List Token) := do
      let (second, ts) ← takeCommand fuel (dropLineEnds ts)
      takeChain fuel (join first second) ts
    match ts with
    | .mark ['&', '&'] :: ts => chained .both ts
    | .mark ['|', '|'] :: ts => chained .either ts
    | ts => some (first, ts)

/-- Takes one command. -/
def takeCommand : Nat → List Token → Option (Command × List Token)
  | 0, _ => none
  | fuel + 1, ts =>
    match reservedWord? ts with
    | some ['!'] => (takeCommand fuel (ts.drop 1)).map fun (c, rest) => (.negated c, rest)
    | some ['{'] => do
      let (inside, ts) ← takeList fuel (ts.drop 1)
      let ts ← takeReserved? "\x7d" ts
      let (redirections, ts) ← takeRedirections ts
      return (.group inside redirections, ts)
    | some ['i', 'f'] => takeChoice fuel (ts.drop 1)
    | some _ => none
    | none =>
      match takeSimple ts with
      | some ([], [], _) | none => none
      | some (words, redirections, rest) => some (.simple (lineOf ts) words redirections, rest)

/-- Takes a choice, from its test on. -/
def takeChoice : Nat → List Token → Option (Command × List Token)
  | 0, _ => none
  | fuel + 1, ts => do
    let (test, ts) ← takeList fuel ts
    let ts ← takeReserved? "then" ts
    let (yes, ts) ← takeList fuel ts
    match reservedWord? ts with
    | some ['e', 'l', 'i', 'f'] =>
      let (no, ts) ← takeChoice fuel (ts.drop 1)
      return (.choice test yes no, ts)
    | some ['e', 'l', 's', 'e'] =>
      let (no, ts) ← takeList fuel (ts.drop 1)
      let ts ← takeReserved? "fi" ts
      return (.choice test yes no, ts)
    | _ =>
      let ts ← takeReserved? "fi" ts
      return (.choice test yes .nothing, ts)

end

/-- The command that a script is. A taken command is built by at most five steps for each token. -/
def Command.ofText? (cs : List Char) : Option Command := do
  let ts ← tokens (cs.length + 1) 1 cs
  match ← takeList (5 * ts.length + 5) ts with
  | (command, []) => return command
  | _ => none

end ApiSurface.Shell
