import ApiSurface.Proofs.SignatureFile.Rewrite
import ApiSurface.Proofs.SignatureFile.Shifted
import ApiSurface.Proofs.SignatureFile.Transcript

/-!
The copyright text of a file. It stands in the header, among lines that say other things, and none of its own
lines is ever taken for one of those or for the end of the header. Main statements: leaving the text out of a
run of a writer changes the header only (`exists_fileText_plain`), the readers of the two headers are at the same
lines behind them (`exists_opened_header`), and so a file tells the version, the features and the copyright text
that were set, and gives what it would give without that text (`opened_fileText`).
-/

namespace ApiSurface

open ApiSurface.Text ApiSurface.SignatureFile

/-- Opening this text by its banner and reading the header gives this reader. -/
def Reader.Opened (text : List Char) (r : Reader) : Prop :=
  ∃ r₀, Reader.open? (ofText text) = .ok (some r₀) ∧ r₀.readHeader = (.ok (), r)

/-- The lines that make up a text. Behind a last line feed there is no further line. -/
def linesOf (text : String) : List String :=
  (Writer.withoutLastEmpty (pieces '\n' text.toList)).map String.ofList

namespace WriterStep

/-- Whether the step sets the copyright text. -/
def setsCopyright : WriterStep → Bool
  | .setCopyright _ => true
  | .removeFeature _ | .setApiVersion _ | .writeHeader | .writeClass _ | .flush => false

/-- The steps without those that set the copyright text. -/
def withoutCopyright (steps : List WriterStep) : List WriterStep := steps.filter (!·.setsCopyright)

theorem withoutCopyright_cons (step : WriterStep) (more : List WriterStep) :
    withoutCopyright (step :: more) =
      if step.setsCopyright then withoutCopyright more else step :: withoutCopyright more := by
  cases h : step.setsCopyright <;> simp [withoutCopyright, h]

/-- Setting the copyright text writes no header, so it may be left out before or after the steps are cut there. -/
theorem beforeHeader_withoutCopyright (steps : List WriterStep) :
    beforeHeader (withoutCopyright steps) = withoutCopyright (beforeHeader steps) := by
  induction steps with
  | nil => rfl
  | cons step more ih =>
    rw [withoutCopyright_cons, beforeHeader_cons]
    cases step with
    | setCopyright text => exact ih
    | writeHeader | writeClass c => rfl
    | removeFeature | setApiVersion | flush => exact congrArg _ ih

end WriterStep

namespace Writer

open WriterStep

/-! ### A writer without the text -/

/-- The writer without its copyright text. -/
def plain (w : Writer) : Writer := { w with copyright := none }

/-- The copyright text has no part in what a step makes of the rest of the writer. -/
theorem perform_plain (w : Writer) {step : WriterStep} (other : step.setsCopyright = false) :
    (w.plain.perform step).2 = (w.perform step).2.plain := by
  have header : w.plain.writeHeader.2 = w.writeHeader.2.plain := by
    cases h : w.headerWritten <;> simp [writeHeader, plain, h]
  cases step with
  | removeFeature feature =>
    cases supported : w.format.supports feature <;> simp [perform, removeFeature, plain, supported]
  | setCopyright text => cases other
  | writeHeader => exact header
  | writeClass c =>
    calc (w.plain.writeClass c).2.2 = w.plain.writeHeader.2 := writeClass_snd w.plain c
      _ = w.writeHeader.2.plain := header
      _ = (w.writeClass c).2.2.plain := by rw [writeClass_snd]
  | setApiVersion | flush => rfl

/-- Setting the text is all that such a step does. -/
theorem perform_of_setsCopyright (w : Writer) {step : WriterStep} (sets : step.setsCopyright = true) :
    (w.perform step).2.plain = w.plain ∧ w.wrote? step = none := by
  cases step with
  | setCopyright text => exact ⟨rfl, rfl⟩
  | removeFeature | setApiVersion | writeHeader | writeClass | flush => cases sets

theorem after_plain (w : Writer) (steps : List WriterStep) :
    w.plain.after (withoutCopyright steps) = (w.after steps).plain := by
  induction steps generalizing w with
  | nil => rfl
  | cons step more ih =>
    rw [withoutCopyright_cons, after]
    cases sets : step.setsCopyright with
    | true =>
      rw [if_pos rfl, ← (w.perform_of_setsCopyright sets).1]
      exact ih (w.perform step).2
    | false =>
      simp only [Bool.false_eq_true, if_false, after]
      rw [perform_plain w sets, ih]

/-- A step writes the same class, if any: no block has a part of the copyright text. -/
theorem wrote?_plain (w : Writer) (step : WriterStep) :
    w.plain.wrote? step = (w.wrote? step).map fun call => (call.1.plain, call.2) := by
  cases step with
  | writeClass c =>
    have same : w.plain.block c = w.block c := rfl
    rcases w.writeClass_cases c with ⟨text, found, fine, -⟩ | ⟨m, none, failed, -⟩ <;>
      rcases w.plain.writeClass_cases c with ⟨text', found', fine', -⟩ | ⟨m', none', failed', -⟩
    · simp [wrote?, fine, fine', Except.toOption]
    · rw [same, found] at none'
      cases none'
    · rw [same, none] at found'
      cases found'
    · simp [wrote?, failed, failed', Except.toOption]
  | removeFeature | setApiVersion | setCopyright | writeHeader | flush => rfl

theorem wrote_plain (w : Writer) (steps : List WriterStep) :
    w.plain.wrote (withoutCopyright steps) = (w.wrote steps).map fun call => (call.1.plain, call.2) := by
  induction steps generalizing w with
  | nil => rfl
  | cons step more ih =>
    rw [withoutCopyright_cons, wrote]
    cases sets : step.setsCopyright with
    | true =>
      obtain ⟨same, none⟩ := w.perform_of_setsCopyright sets
      rw [if_pos rfl, none, ← same]
      exact ih (w.perform step).2
    | false =>
      simp only [Bool.false_eq_true, if_false, wrote]
      rw [wrote?_plain, perform_plain w sets, ih, List.map_append, Option.toList_map]

/-- Blocks are the texts of one list of calls only. -/
theorem AreBlocks.unique {calls : List (Writer × ClassDescription)} {texts texts' : List (List Char)}
    (one : AreBlocks calls texts) (other : AreBlocks calls texts') : texts = texts' := by
  refine List.right_unique_forall₂' ?_ one other
  intro call text text' h h'
  exact Except.ok.inj (h.symm.trans h')

/-- **Without the text.** A file that is written without the copyright text has another header, and the same blocks
behind it. -/
theorem exists_fileText_plain {w : Writer} (unwritten : w.headerWritten = false) (steps : List WriterStep) :
    ∃ texts, AreBlocks (w.wrote steps) texts ∧
      w.fileText steps = (w.after (beforeHeader steps)).header ++ texts.flatten ∧
      w.plain.fileText (withoutCopyright steps) =
        (w.after (beforeHeader steps)).plain.header ++ texts.flatten := by
  obtain ⟨texts, blocks, -, whole⟩ := exists_areBlocks_fileText unwritten steps
  obtain ⟨texts', blocks', -, whole'⟩ :=
    exists_areBlocks_fileText (w := w.plain) unwritten (withoutCopyright steps)
  rw [wrote_plain] at blocks'
  have same : texts = texts' := blocks.unique (List.forall₂_map_left_iff.1 blocks')
  refine ⟨texts, blocks, whole, ?_⟩
  rw [whole', beforeHeader_withoutCopyright, after_plain, same]

/-! ### The header, heard -/

/-- The pieces between line feeds are lines, where there is no carriage return. -/
theorem singleLine_pieces {text : List Char} (returns : '\r' ∉ text) : ∀ line ∈ pieces '\n' text, SingleLine line := by
  intro line mem c inLine
  obtain ⟨free, part⟩ := mem_of_mem_pieces mem
  constructor
  · rintro rfl
    exact free inLine
  · rintro rfl
    exact returns (part _ inLine)

/-- A text without carriage returns is cut at its line feeds. -/
theorem textLines_eq {text : List Char} (returns : '\r' ∉ text) :
    textLines text = withoutLastEmpty (pieces '\n' text) := by
  calc textLines text = textLines (join ['\n'] (pieces '\n' text)) := by rw [join_pieces]
    _ = withoutLastEmpty (pieces '\n' text) := textLines_join (singleLine_pieces returns)

/-- A text without blanks at its ends has no end of a line there. -/
theorem trimLineEnd_of_trimmed {t : List Char} (trimmed : Trimmed t) : trimLineEnd t = t := by
  rcases List.eq_nil_or_concat' t with rfl | ⟨front, c, rfl⟩
  · rfl
  · have filled : isBlank c = false := trimmed.2 c (by simp)
    have other : (c == '\r' || c == '\n') = false := by
      rw [Bool.or_eq_false_iff, beq_eq_false_iff_ne, beq_eq_false_iff_ne]
      constructor
      · rintro rfl
        cases filled
      · rintro rfl
        cases filled
    simp [trimLineEnd, other]

/-- Of a text without carriage returns a reader gets the lines, if it is written. -/
theorem copyright_heard {w : Writer} (returns : ∀ text ∈ w.copyright, '\r' ∉ text.toList) :
    w.heard.copyright = if w.hasFeature .copyRight then w.copyright.elim [] linesOf else [] := by
  by_cases written : w.hasFeature .copyRight
  · cases given : w.copyright with
    | none => simp [heard, copyrightTexts, written, given]
    | some text =>
      have free : '\r' ∉ text.toList := returns text given
      have ends : ∀ line ∈ withoutLastEmpty (pieces '\n' text.toList),
          String.ofList (trimLineEnd line) = String.ofList line := fun line mem => by
        rw [trimLineEnd_of_singleLine (singleLine_pieces free line (mem_of_mem_withoutLastEmpty mem))]
      simpa [heard, copyrightTexts, written, given, linesOf, textLines_eq free] using ends
  · simp [heard, copyrightTexts, written]

/-- The copyright text takes as many lines of the header as a reader gets of it. -/
theorem length_headerLines_plain (w : Writer) :
    w.headerLines.length = w.plain.headerLines.length + w.heard.copyright.length := by
  have none : w.plain.copyrightTexts = [] := ite_self []
  have absent : w.plain.absent = w.absent := rfl
  simp only [headerLines, heard, none, absent, List.length_append, List.length_map, List.length_cons, List.length_nil]
  omega

/-- **A header, heard.** Whatever follows it, the header of a writer gives its version, the features that it writes
and the lines of its copyright text; the reader is then where that of the plain header is, but for the numbers of the
lines, and gives what that one gives. -/
theorem exists_opened_header {w : Writer} (known : w.format ∈ Format.newestFirst)
    (version : '\n' ∉ w.apiVersion.toList) (trimmed : Trimmed w.apiVersion.toList) (body : List Char) :
    ∃ r p, Reader.Opened (w.header ++ body) r ∧ Reader.Opened (w.plain.header ++ body) p ∧
      r.header.apiVersion = some w.apiVersion ∧
      r.activeFeatures = w.format.features.filter w.hasFeature ∧
      r.header.copyright = w.heard.copyright ∧
      Reader.FurtherDown w.heard.copyright.length p r := by
  refine ⟨_, _, ⟨_, open?_header known version body, readHeader_heard known version body⟩,
    ⟨_, open?_header (w := w.plain) known version body, readHeader_heard (w := w.plain) known version body⟩,
    ?_, activeFeatures_of_heard rfl rfl, rfl, rfl, rfl, by simp, ?_, rfl⟩
  · rw [heard, trimLineEnd_of_trimmed trimmed, trimmed.trim_eq, String.ofList_toList]
  · rw [map_shift_numbered, length_headerLines_plain, ← Nat.add_assoc, Nat.add_right_comm]

/-- **What free text cannot do.** Take any run of a writer, with a trimmed version on one line and a copyright text
without carriage returns, and the run without that text. Both files are a header and the same blocks. Whatever stands
behind the headers, blocks or not, the reader of the first tells the version, the features that were left, and the
lines of the text if it was to be written; everything asked of it then has the answer that it has behind
the header without the text, where a fault is as many lines further up as the text has. -/
theorem opened_fileText {f : Format} (known : f ∈ Format.newestFirst) {steps : List WriterStep} {w : Writer}
    (atHeader : w = (ofFormat f).after (beforeHeader steps)) (version : '\n' ∉ w.apiVersion.toList)
    (trimmed : trim w.apiVersion.toList = w.apiVersion.toList)
    (returns : ∀ text ∈ w.copyright, '\r' ∉ text.toList) :
    (∃ texts, AreBlocks ((ofFormat f).wrote steps) texts ∧
      (ofFormat f).fileText steps = w.header ++ texts.flatten ∧
      (ofFormat f).fileText (withoutCopyright steps) = w.plain.header ++ texts.flatten) ∧
    ∀ body, ∃ r p, Reader.Opened (w.header ++ body) r ∧ Reader.Opened (w.plain.header ++ body) p ∧
      r.header.apiVersion = some w.apiVersion ∧ r.activeFeatures = w.features ∧
      r.header.copyright = (if w.hasFeature .copyRight then w.copyright.elim [] linesOf else []) ∧
      ∀ ops, r.answers ops = (p.answers ops).map (ReaderAnswer.shift r.header.copyright.length) := by
  have format : w.format = f := atHeader ▸ format_after (ofFormat f) (beforeHeader steps)
  constructor
  · rw [atHeader]
    exact exists_fileText_plain (w := ofFormat f) rfl steps
  · intro body
    obtain ⟨r, p, opened, opened', heardVersion, features, copyright, further⟩ :=
      exists_opened_header (format.symm ▸ known) version (trimmed ▸ trimmed_trim _) body
    refine ⟨r, p, opened, opened', heardVersion, ?_, copyright.trans (copyright_heard returns), ?_⟩
    · rw [features, format, atHeader]
      exact features_after_ofFormat f (beforeHeader steps)
    · rw [copyright]
      exact further.answers

/-- A copyright text whose lines are empty, a feature, a version, a comment sign and a class. -/
def lookalikeCopyright : List WriterStep :=
  [.setCopyright "\nConstInfo\nversion 2\n#\nCLSS public a.B\n", .removeFeature .tigerInfo, .setApiVersion "1.0",
    .writeClass (.named "a.C" .none)]

/-- Its five lines are heard as such, and none is taken for a version, a mark or a class: all else is as without
them, five lines further up. -/
theorem opened_fileText_lookalikeCopyright :
    '\n' ∉ "1.0".toList ∧ trim "1.0".toList = "1.0".toList ∧
    '\r' ∉ "\nConstInfo\nversion 2\n#\nCLSS public a.B\n".toList ∧
    ∃ r p, Reader.Opened ((ofFormat .v43).fileText lookalikeCopyright) r ∧
      Reader.Opened ((ofFormat .v43).fileText (withoutCopyright lookalikeCopyright)) p ∧
      r.header.apiVersion = some "1.0" ∧ .tigerInfo ∉ r.activeFeatures ∧
      r.header.copyright = ["", "ConstInfo", "version 2", "#", "CLSS public a.B"] ∧
      ∀ ops, r.answers ops = (p.answers ops).map (ReaderAnswer.shift 5) := by
  obtain ⟨⟨texts, -, whole, whole'⟩, heard⟩ := @opened_fileText .v43 (by decide) lookalikeCopyright _ rfl
    (by decide) (by decide) (by decide +kernel)
  obtain ⟨r, p, opened, opened', version, features, copyright, answers⟩ := heard texts.flatten
  have lines : r.header.copyright = ["", "ConstInfo", "version 2", "#", "CLSS public a.B"] :=
    copyright.trans (by decide +kernel)
  refine ⟨by decide, by decide, by decide +kernel, r, p, whole ▸ opened, whole' ▸ opened', version, ?_, lines, ?_⟩
  · rw [features]
    decide
  · rw [lines] at answers
    exact answers

end Writer
end ApiSurface
