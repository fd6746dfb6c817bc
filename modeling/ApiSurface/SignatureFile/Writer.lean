import ApiSurface.Class
import ApiSurface.Format
import ApiSurface.Line.Member
import ApiSurface.SignatureFile.Source

/-!
Writing a signature file. The header comes once, before the first block; every block is followed by an
empty line. Members of a kind come in the order of their lines, each followed by its annotations. What an
operation adds to the file is part of its result, so that a writer is a value without a sink.
-/

namespace ApiSurface

open ApiSurface.Text

/-- Why something is not written. -/
inductive WriteError where
  | unsupportedFeature (feature : Feature)
  /-- A line has no old spelling. -/
  | malformed (m : Malformed)
  deriving DecidableEq, Repr

/-- The error in words. -/
def WriteError.message : WriteError → String
  | .unsupportedFeature feature => "Writer does not support feature " ++ feature.name
  | .malformed m => m.message

/-- A signature file being written. -/
structure Writer where
  format : Format
  /-- The features that are not left out. -/
  features : List Feature
  apiVersion : String
  copyright : Option String
  headerWritten : Bool
  deriving DecidableEq, Repr

namespace Writer

/-- A writer for a format with all its features. -/
def ofFormat (f : Format) : Writer := ⟨f, f.features, "", none, false⟩

/-- Whether a feature is written. -/
def hasFeature (w : Writer) (feature : Feature) : Bool := w.features.contains feature

/-- Leaves a feature out. -/
def removeFeature (w : Writer) (feature : Feature) : Except WriteError Writer :=
  if w.format.supports feature then .ok { w with features := w.features.filter (· ≠ feature) }
  else .error (.unsupportedFeature feature)

/-- Names the version of the described API. -/
def setApiVersion (w : Writer) (version : String) : Writer := { w with apiVersion := version }

/-- Sets the copyright text. -/
def setCopyright (w : Writer) (text : String) : Writer := { w with copyright := some text }

/-- What may be put on a line. -/
def style (w : Writer) : LineStyle := ⟨w.hasFeature .constInfo, w.hasFeature .tigerInfo⟩

/-- A line with its end. -/
def lined (line : List Char) : List Char := line ++ ['\n']

/-! ### Header -/

/-- A line of a text without its end: a line feed, and a carriage return before it. -/
def withoutLineEnd (line : List Char) : List Char :=
  match beforeTail? ['\n'] line with
  | none => line
  | some line => (beforeTail? ['\r'] line).getD line

/-- The lines of a text. -/
def textLines (text : List Char) : List (List Char) :=
  (SignatureFile.cutLines (· == '\n') text).map withoutLineEnd

/-- The lines of the copyright text, as far as it is written. -/
def copyrightLines (w : Writer) : List (List Char) :=
  if w.hasFeature .copyRight then
    (w.copyright.map fun text => (textLines text.toList).map ("# ".toList ++ ·)).getD []
  else []

/-- The header. -/
def header (w : Writer) : List Char :=
  ([w.format.banner.toList, "version ".toList ++ w.apiVersion.toList] ++
    ((w.format.features.filter (!w.hasFeature ·)).map fun f => (Feature.absenceMarker f).toList) ++
    w.copyrightLines ++ [[]]).flatMap lined

/-- Writes the header, unless it was written before. -/
def writeHeader (w : Writer) : List Char × Writer :=
  if w.headerWritten then ([], w) else (w.header, { w with headerWritten := true })

/-! ### Blocks -/

/-- The lines of annotations in order. -/
def annotationLines (uses : List AnnotationUse) : List String :=
  (uses.map (·.line)).mergeSort fun a b => decide (a ≤ b)

/-- Whether lines may come before other lines: the first pair of lines that differ decides, and lines come
before those that they begin. -/
def linesLe : List String → List String → Bool
  | [], _ => true
  | _ :: _, [] => false
  | a :: as, b :: bs => decide (a < b) || (a == b && linesLe as bs)

/-- Whether a member with its annotations may come before another one. -/
def blockLe (a b : String × List String) : Bool := linesLe (a.1 :: a.2) (b.1 :: b.2)

/-- The line of a member and the lines of its annotations. -/
def memberBlock (w : Writer) (c : ClassDescription) (scope : Erasure) (m : Member) :
    Except Malformed (String × List String) :=
  (LegacyRule.encodeAll c.name w.format.rules (Line.formatMember w.style scope c.name m)).map
    fun line => (String.ofList line, annotationLines m.annotations)

/-- The lines of the members of a kind. -/
def kindLines (w : Writer) (c : ClassDescription) (scope : Erasure) (kind : MemberKind) :
    Except Malformed (List String) :=
  if kind = .superclass ∧ c.superclass.isNone ∧ w.format.hasRule .nullSuper then
    .ok [Legacy.nullSuperLine]
  else
    ((c.declared kind).mapM (w.memberBlock c scope)).map fun blocks =>
      (blocks.mergeSort blockLe).flatMap fun (line, uses) => line :: uses

/-- The line that lists hidden names, if there are any and the feature is written. -/
def hiddenLines (w : Writer) (tag : String) (names : Option (Ordered.Set String)) : List String :=
  match ClassDescription.nonempty? names with
  | some names => if w.hasFeature .listOfHiders then [String.ofList (Line.formatHidden tag names)] else []
  | none => []

/-- The lines of a class block, without the empty line after it. -/
def classLines (w : Writer) (c : ClassDescription) : Except Malformed (List String) := do
  let scope := Erasure.empty.nest (c.typeParameters.map String.toList)
  let header := Line.formatClassHeader w.style ⟨c.modifiers.visible, c.name, c.typeParameters⟩
  let header ← LegacyRule.encodeAll c.name w.format.rules header
  let members ← MemberKind.writeOrder.mapM (w.kindLines c scope)
  return [String.ofList header] ++ annotationLines c.annotations ++ members.flatten ++
    w.hiddenLines hiddenFieldsTag c.hiddenFields ++ w.hiddenLines hiddenClassesTag c.hiddenClasses

/-- The block of a class or a module; a module that is left out has none. -/
def block (w : Writer) (c : ClassDescription) : Except Malformed (List Char) :=
  match c.moduleInfo with
  | some m => .ok (if w.hasFeature .moduleInfo then lined m.toMarkup.toList ++ lined [] else [])
  | none => (w.classLines c).map fun lines => (lines.map String.toList ++ [[]]).flatMap lined

/-- Writes a class or a module, and before it the header, unless it was written. Of a block that has no
old spelling nothing is written. -/
def writeClass (w : Writer) (c : ClassDescription) : List Char × Except WriteError Unit × Writer :=
  let (header, w) := w.writeHeader
  match w.block c with
  | .ok text => (header ++ text, .ok (), w)
  | .error m => (header, .error (.malformed m), w)

/-- Ends the file: writes the header, unless it was written. -/
def close (w : Writer) : List Char := w.writeHeader.1

end Writer

end ApiSurface
