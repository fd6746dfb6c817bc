import ApiSurface.Class
import ApiSurface.Format
import ApiSurface.Line.Member
import ApiSurface.SignatureFile.Source

/-!
Reading a signature file, one class or module at a time. A file begins with a header: the banner, the
version of the described API, marks for features that were left out, and the copyright text. Blocks
follow. A class block begins with the line of the class and goes on to the next class or module; an
annotation belongs to the member on the last member line before it, or to the class. A fault is reported
with the number of its line and the lines up to there count as read.
-/

namespace ApiSurface

open ApiSurface.Text ApiSurface.SignatureFile

/-- Why a signature file cannot be read on. -/
inductive ReadError where
  /-- The first line is not the banner of the format. -/
  | formatMismatch (line : String)
  | malformed (m : Malformed)
  /-- A line is no text in UTF-8. -/
  | undecodable
  deriving DecidableEq, Repr

/-- The message about a file whose first line is no banner. -/
def formatMismatchMessage (line : String) : String :=
  "Unrecognized signature file header: " ++ quoted line

/-- What is wrong with a text that is not in UTF-8. -/
def undecodableMessage : String := "stream did not contain valid UTF-8"

/-- The error in words. -/
def ReadError.message : ReadError → String
  | .formatMismatch line => formatMismatchMessage line
  | .malformed m => m.message
  | .undecodable => "I/O error: " ++ undecodableMessage

/-- The error in words, followed by its cause if that is a fault of its own. -/
def ReadError.fullMessage (e : ReadError) : String :=
  match e with
  | .undecodable => e.message ++ ": " ++ undecodableMessage
  | _ => e.message

/-- What the header of a file says. -/
structure FileHeader where
  apiVersion : Option String
  /-- The features that were left out. -/
  absent : List Feature
  copyright : List String
  deriving DecidableEq, Repr

/-- A header that says nothing. -/
def FileHeader.blank : FileHeader := ⟨none, [], []⟩

namespace SignatureFile

/-! ### Header -/

/-- What the line with the API version begins with. -/
def versionLead : List Char := "version ".toList

/-- What a line of the copyright text begins with. -/
def copyrightLead : List Char := "# ".toList

/-- The header with what one more line of it says; nothing if the line is no part of a header. -/
def headerLine? (h : FileHeader) (cs : List Char) : Option FileHeader :=
  match afterLead? versionLead cs with
  | some version => some { h with apiVersion := some (String.ofList (trim version)) }
  | none =>
    match Feature.ofAbsenceMarker? (trimEnd cs) with
    | some feature => some { h with absent := feature :: h.absent }
    | none =>
      match afterLead? copyrightLead cs with
      | some text => some { h with copyright := h.copyright ++ [String.ofList text] }
      | none => if cs.head? = some '#' then some h else none

/-- Reads header lines up to a blank line or a line that is no part of a header, which is left. -/
def readHeaderLines :
    FileHeader → List SourceLine → Except ReadError Unit × FileHeader × List SourceLine
  | h, [] => (.ok (), h, [])
  | h, .undecodable :: rest => (.error .undecodable, h, rest)
  | h, .text n cs :: rest =>
    if allBlank cs then (.ok (), h, rest)
    else
      match headerLine? h cs with
      | some h => readHeaderLines h rest
      | none => (.ok (), h, .text n cs :: rest)

/-! ### Blocks -/

/-- The end tag of a module block. -/
def moduleEnd : List Char := "</module>".toList

/-- Whether a module block is on its first line only. -/
def isWholeModule (cs : List Char) : Bool :=
  occurs moduleEnd cs || (beforeTail? "/>".toList (trimEnd cs)).isSome

/-- Reads lines of a module block up to its end tag. -/
def gatherModule (first : Nat) :
    List Char → List SourceLine → Except ReadError (List Char) × List SourceLine
  | text, [] => (.error (.malformed ⟨first, .moduleNotClosed, String.ofList text⟩), [])
  | _, .undecodable :: rest => (.error .undecodable, rest)
  | text, .text _ cs :: rest =>
    let text := text ++ '\n' :: cs
    if occurs moduleEnd cs then (.ok text, rest) else gatherModule first text rest

/-- Reads a module block that begins with this line. -/
def readModule (first : Nat) (cs : List Char) (rest : List SourceLine) :
    Except ReadError ModuleDescription × List SourceLine :=
  let (text, rest) := if isWholeModule cs then (.ok cs, rest) else gatherModule first cs rest
  match text with
  | .error e => (.error e, rest)
  | .ok text =>
    match ModuleDescription.ofMarkup (String.ofList text) with
    | .ok m => (.ok m, rest)
    | .error fault => (.error (.malformed ⟨first, .moduleBlock fault, String.ofList text⟩), rest)

/-- A line of a class block, in the spelling of today. Its kind is that of the old spelling. -/
structure BlockLine where
  number : Nat
  kind : LineKind
  text : List Char
  deriving DecidableEq, Repr

/-- Reads the lines of a class block up to the next block. -/
def gatherClass (rules : List LegacyRule) (className : String) :
    List SourceLine → Except ReadError (List BlockLine) × List SourceLine
  | [] => (.ok [], [])
  | .undecodable :: rest => (.error .undecodable, rest)
  | .text n cs :: rest =>
    let kind := LineKind.of cs
    if kind = .classHeader ∨ kind = .moduleBlock then (.ok [], .text n cs :: rest)
    else if allBlank cs then gatherClass rules className rest
    else
      match LegacyRule.decodeAll className rules cs with
      | .error m => (.error (.malformed (m.atLine n)), rest)
      | .ok none => gatherClass rules className rest
      | .ok (some text) =>
        match gatherClass rules className rest with
        | (.ok lines, rest) => (.ok (⟨n, kind, text⟩ :: lines), rest)
        | (.error e, rest) => (.error e, rest)

/-- A class as far as its block was read, with the kind of the member read last. -/
structure ClassDraft where
  description : ClassDescription
  latest : Option MemberKind

/-- Puts an annotation on the last of some members. -/
def annotateLast (use : AnnotationUse) : List Member → List Member
  | [] => []
  | [m] => [m.annotate use]
  | m :: n :: more => m :: annotateLast use (n :: more)

/-- Puts an annotation on the member read last, or on the class. -/
def ClassDraft.annotate (d : ClassDraft) (use : AnnotationUse) : ClassDraft :=
  match d.latest with
  | none =>
    { d with description := { d.description with annotations := d.description.annotations ++ [use] } }
  | some kind => { d with description := d.description.updateMembers kind (annotateLast use) }

/-- The draft with one more line of its block, when these features are active. -/
def ClassDraft.add (active : Feature → Bool) (d : ClassDraft) (line : BlockLine) :
    Except Malformed ClassDraft :=
  let c := d.description
  match line.kind with
  | .annotated =>
    match Annotated.ofLine line.text with
    | .ok use => .ok (d.annotate use)
    | .error fault => .error ⟨line.number, .use fault, String.ofList line.text⟩
  | .member kind =>
    match Line.parseMember kind c.name line.text with
    | .ok m =>
      .ok ⟨c.addMember (if active .constInfo then m else m.withoutConstant), some kind⟩
    | .error m => .error (m.atLine line.number)
  | .hiddenFields =>
    .ok (if active .listOfHiders then
      { d with description := { c with hiddenFields := some (Line.parseHidden line.text) } } else d)
  | .hiddenClasses =>
    .ok (if active .listOfHiders then
      { d with description := { c with hiddenClasses := some (Line.parseHidden line.text) } } else d)
  | _ => .error ⟨line.number, .unrecognized, String.ofList line.text⟩

/-- The draft with all lines of its block. -/
def ClassDraft.addAll (active : Feature → Bool) :
    ClassDraft → List BlockLine → Except Malformed ClassDraft
  | d, [] => .ok d
  | d, line :: more =>
    match d.add active line with
    | .error m => .error m
    | .ok d => d.addAll active more

/-- Reads a class block that begins with this line. -/
def readClass (f : Format) (active : Feature → Bool) (first : Nat) (cs : List Char)
    (rest : List SourceLine) : Except ReadError ClassDescription × List SourceLine :=
  match Line.parseClassHeader cs with
  | .error m => (.error (.malformed (m.atLine first)), rest)
  | .ok header =>
    match gatherClass f.rules header.name rest with
    | (.error e, rest) => (.error e, rest)
    | (.ok lines, rest) =>
      let start := { ClassDescription.named header.name header.modifiers with
        typeParameters := header.typeParameters }
      match ClassDraft.addAll active ⟨start, none⟩ lines with
      | .error m => (.error (.malformed m), rest)
      | .ok d => (.ok d.description, rest)

/-- Reads the next block of at most `limit` lines that is not left out. -/
def readBlock (f : Format) (active : Feature → Bool) :
    Nat → List SourceLine → Except ReadError (Option ClassDescription) × List SourceLine
  | 0, lines => (.ok none, lines)
  | _ + 1, [] => (.ok none, [])
  | _ + 1, .undecodable :: rest => (.error .undecodable, rest)
  | limit + 1, .text n cs :: rest =>
    if allBlank cs then readBlock f active limit rest
    else
      match LineKind.of cs with
      | .moduleBlock =>
        match readModule n cs rest with
        | (.error e, rest) => (.error e, rest)
        | (.ok m, rest) =>
          if active .moduleInfo then (.ok (some (.ofModule m)), rest)
          else readBlock f active limit rest
      | .classHeader =>
        match readClass f active n cs rest with
        | (.error e, rest) => (.error e, rest)
        | (.ok c, rest) => (.ok (some c), rest)
      | _ => (.error (.malformed ⟨n, .noClassHeader, String.ofList cs⟩), rest)

end SignatureFile

/-! ### Reader -/

/-- How far a file was read. -/
inductive ReaderPhase where
  | unopened | reading | closed
  deriving DecidableEq, Repr

/-- A signature file being read. -/
structure Reader where
  format : Format
  phase : ReaderPhase
  /-- The lines that were not read yet. -/
  lines : List SourceLine
  header : FileHeader

namespace Reader

/-- A reader for a file that is expected to have this format. -/
def ofFormat (f : Format) (lines : List SourceLine) : Reader := ⟨f, .unopened, lines, .blank⟩

/-- A reader for a file of any format; none if its first line is no banner. -/
def open? (lines : List SourceLine) : Except ReadError (Option Reader) :=
  match lines with
  | [] => .ok none
  | .undecodable :: _ => .error .undecodable
  | .text _ cs :: _ => .ok ((Format.byBanner? cs).map (ofFormat · lines))

/-- Whether the format has the feature and the header does not say that it was left out. -/
def hasFeature (r : Reader) (feature : Feature) : Bool :=
  r.format.supports feature && !r.header.absent.contains feature

/-- The features of the format that the header does not say were left out. -/
def activeFeatures (r : Reader) : List Feature := r.format.features.filter r.hasFeature

/-- Reads no further. -/
def close (r : Reader) : Reader := { r with phase := .closed, lines := [] }

/-- Reads the header, unless it was read before. -/
def readHeader (r : Reader) : Except ReadError Unit × Reader :=
  if r.phase ≠ .unopened then (.ok (), r)
  else
    match r.lines with
    | [] => (.error (.formatMismatch ""), r.close)
    | .undecodable :: rest => (.error .undecodable, { r with lines := rest })
    | .text _ cs :: rest =>
      if String.ofList (trimEnd cs) ≠ r.format.banner then
        (.error (.formatMismatch (String.ofList cs)), { r with phase := .closed, lines := rest })
      else
        match readHeaderLines r.header rest with
        | (.error e, header, rest) => (.error e, { r with header := header, lines := rest })
        | (.ok (), header, rest) =>
          (.ok (), { r with header := header, lines := rest, phase := .reading })

/-- Reads the next class or module; there is none at the end and once the reader is closed. -/
def readNext (r : Reader) : Except ReadError (Option ClassDescription) × Reader :=
  match r.readHeader with
  | (.error e, r) => (.error e, r)
  | (.ok (), r) =>
    if r.phase = .closed then (.ok none, r)
    else
      match readBlock r.format r.hasFeature (r.lines.length + 1) r.lines with
      | (.ok none, rest) => (.ok none, { r with phase := .closed, lines := rest })
      | (result, rest) => (result, { r with lines := rest })

/-- Reads at most `limit` classes and modules. -/
def readUpTo : Nat → Reader → Except ReadError (List ClassDescription) × Reader
  | 0, r => (.ok [], r)
  | limit + 1, r =>
    match r.readNext with
    | (.error e, r) => (.error e, r)
    | (.ok none, r) => (.ok [], r)
    | (.ok (some c), r) =>
      match readUpTo limit r with
      | (.error e, r) => (.error e, r)
      | (.ok more, r) => (.ok (c :: more), r)

/-- Reads all classes and modules that are left; one takes a line at least. -/
def readAll (r : Reader) : Except ReadError (List ClassDescription) × Reader :=
  r.readUpTo (r.lines.length + 1)

/-- Reads the next class or module; an error closes the reader. -/
def iterate (r : Reader) : Except ReadError (Option ClassDescription) × Reader :=
  match r.readNext with
  | (.error e, r) => (.error e, r.close)
  | result => result

end Reader

end ApiSurface
