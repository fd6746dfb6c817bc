import ApiSurface.Proofs.SignatureFile.Header

/-!
A writer used step by step. The header is written once, by the first step that writes anything or else at
the end, while features can be left out at any step. Main statements: what a run of steps does to the
features (`features_after`), a file begins with the header of the writer that wrote it
(`fileText_eq_header_append`), which a reader hears whatever follows (`readHeader_heard`), and a reader takes as
active what the writer had when it wrote the header, from which every later block may have lost features
(`activeFeatures_fileText`).
-/

namespace ApiSurface

open ApiSurface.Text ApiSurface.SignatureFile

/-- Something done with a writer before it ends the file. -/
inductive WriterStep where
  | removeFeature (feature : Feature)
  | setApiVersion (version : String)
  | setCopyright (text : String)
  | writeHeader
  | writeClass (c : ClassDescription)
  /-- Hands on what was written; the writer holds nothing back. -/
  | flush

namespace WriterStep

/-- Whether the header is in the file after this step. -/
def writesHeader : WriterStep → Bool
  | .writeHeader | .writeClass _ => true
  | _ => false

/-- The feature that the step leaves out. -/
def removed? : WriterStep → Option Feature
  | .removeFeature feature => some feature
  | _ => none

/-- The features that steps leave out. -/
def removed (steps : List WriterStep) : List Feature := steps.filterMap removed?

/-- The steps before the first one that writes the header. -/
def beforeHeader (steps : List WriterStep) : List WriterStep := steps.takeWhile (!·.writesHeader)

/-- The steps from the first one on that writes the header. -/
def sinceHeader (steps : List WriterStep) : List WriterStep := steps.dropWhile (!·.writesHeader)

@[simp] theorem removed_nil : removed [] = [] := rfl

theorem removed_append (a b : List WriterStep) : removed (a ++ b) = removed a ++ removed b :=
  List.filterMap_append

theorem beforeHeader_append_sinceHeader (steps : List WriterStep) :
    beforeHeader steps ++ sinceHeader steps = steps := List.takeWhile_append_dropWhile

theorem beforeHeader_cons (step : WriterStep) (more : List WriterStep) :
    beforeHeader (step :: more) = if step.writesHeader then [] else step :: beforeHeader more := by
  cases h : step.writesHeader <;> simp [beforeHeader, h]

/-- What comes after a step that writes the header has no part in what comes before the header. -/
theorem beforeHeader_append_cons {step : WriterStep} (writes : step.writesHeader = true)
    (before more : List WriterStep) : beforeHeader (before ++ step :: more) = beforeHeader before := by
  induction before with
  | nil => simp [beforeHeader, writes]
  | cons first before ih => rw [List.cons_append, beforeHeader_cons, beforeHeader_cons, ih]

end WriterStep

namespace Writer

open WriterStep

/-! ### One step -/

/-- What a step adds to the file, and the writer after it. A step that fails changes nothing, but a block
that has no old spelling leaves its header. -/
def perform (w : Writer) : WriterStep → List Char × Writer
  | .removeFeature feature =>
    match w.removeFeature feature with
    | .ok w => ([], w)
    | .error _ => ([], w)
  | .setApiVersion version => ([], w.setApiVersion version)
  | .setCopyright text => ([], w.setCopyright text)
  | .writeHeader => w.writeHeader
  | .writeClass c => ((w.writeClass c).1, (w.writeClass c).2.2)
  | .flush => ([], w)

/-- Every feature that the writer writes is one of the format. -/
def Carried (w : Writer) : Prop := ∀ feature ∈ w.features, feature ∈ w.format.features

theorem carried_ofFormat (f : Format) : (ofFormat f).Carried := fun _ mem => mem

/-- A block changes the writer as its header does. -/
theorem writeClass_snd (w : Writer) (c : ClassDescription) :
    (w.writeClass c).2.2 = w.writeHeader.2 := by
  simp only [writeClass]
  split <;> rfl

/-- Whatever comes of a block, it stands behind its header. -/
theorem exists_writeClass_fst (w : Writer) (c : ClassDescription) :
    ∃ text, (w.writeClass c).1 = w.writeHeader.1 ++ text := by
  simp only [writeClass]
  split
  · exact ⟨_, rfl⟩
  · exact ⟨[], (List.append_nil _).symm⟩

theorem format_perform (w : Writer) (step : WriterStep) : (w.perform step).2.format = w.format := by
  cases step with
  | removeFeature feature =>
    cases supported : w.format.supports feature <;> simp [perform, removeFeature, supported]
  | writeHeader => exact format_writeHeader w
  | writeClass c =>
    simp only [perform, writeClass_snd]
    exact format_writeHeader w
  | setApiVersion | setCopyright | flush => rfl

/-- A step takes from the features at most the one that it leaves out. A feature that the format does not
carry is not there in the first place. -/
theorem features_perform {w : Writer} (carried : w.Carried) (step : WriterStep) :
    (w.perform step).2.features = w.features.filter (· ∉ step.removed?.toList) := by
  cases step with
  | removeFeature feature =>
    cases supported : w.format.supports feature with
    | true => simp [perform, removeFeature, supported, removed?]
    | false =>
      have absent : feature ∉ w.features := fun mem => by
        simp [Format.supports, carried feature mem] at supported
      have kept : w.features.filter (· ∉ [feature]) = w.features :=
        List.filter_eq_self.2 fun other mem => by
          simpa using fun same : other = feature => absent (same ▸ mem)
      simpa [perform, removeFeature, supported, removed?] using kept.symm
  | writeHeader => simp [perform, removed?]
  | writeClass c => simp [perform, writeClass_snd, removed?]
  | setApiVersion | setCopyright | flush => simp [perform, setApiVersion, setCopyright, removed?]

theorem Carried.perform {w : Writer} (carried : w.Carried) (step : WriterStep) :
    (w.perform step).2.Carried := by
  intro feature mem
  rw [features_perform carried] at mem
  rw [format_perform]
  exact carried feature (List.mem_of_mem_filter mem)

/-- Only the steps that write the header count it as written. -/
theorem headerWritten_perform {w : Writer} {step : WriterStep} (silent : step.writesHeader = false) :
    (w.perform step).2.headerWritten = w.headerWritten ∧ (w.perform step).1 = [] := by
  cases step with
  | removeFeature feature =>
    cases supported : w.format.supports feature <;> simp [Writer.perform, removeFeature, supported]
  | writeHeader | writeClass => cases silent
  | setApiVersion | setCopyright | flush => exact ⟨rfl, rfl⟩

/-! ### Runs -/

/-- The writer after some steps. -/
def after (w : Writer) : List WriterStep → Writer
  | [] => w
  | step :: more => (w.perform step).2.after more

/-- The file that the steps and then the end write. -/
def fileText (w : Writer) : List WriterStep → List Char
  | [] => w.close
  | step :: more => (w.perform step).1 ++ (w.perform step).2.fileText more

theorem format_after (w : Writer) (steps : List WriterStep) : (w.after steps).format = w.format := by
  induction steps generalizing w with
  | nil => rfl
  | cons step more ih => rw [after, ih, format_perform]

/-- A run takes from the features exactly those that its steps leave out. -/
theorem features_after {w : Writer} (carried : w.Carried) (steps : List WriterStep) :
    (w.after steps).features = w.features.filter (· ∉ removed steps) := by
  induction steps generalizing w with
  | nil => simp [after]
  | cons step more ih =>
    rw [after, ih (carried.perform step), features_perform carried, List.filter_filter]
    refine List.filter_congr fun feature _ => ?_
    cases h : step.removed? <;> simp [removed, h, Bool.and_comm]

/-- From the header on a run takes from the features what is left out since then. -/
theorem features_after_sinceHeader {w : Writer} (carried : w.Carried) (steps : List WriterStep) :
    (w.after steps).features =
      (w.after (beforeHeader steps)).features.filter (· ∉ removed (sinceHeader steps)) := by
  rw [features_after carried, features_after carried, List.filter_filter]
  refine List.filter_congr fun feature _ => ?_
  rw [← beforeHeader_append_sinceHeader steps, removed_append, beforeHeader_append_sinceHeader]
  simp [Bool.and_comm]

/-- A file begins with the header as the writer has it when it writes for the first time. -/
theorem fileText_eq_header_append {w : Writer} (unwritten : w.headerWritten = false)
    (steps : List WriterStep) :
    ∃ rest, w.fileText steps = (w.after (beforeHeader steps)).header ++ rest := by
  have own : w.writeHeader.1 = w.header := by simp [writeHeader, unwritten]
  induction steps generalizing w with
  | nil => exact ⟨[], by simp [fileText, close, own, beforeHeader, after]⟩
  | cons step more ih =>
    cases writes : step.writesHeader with
    | false =>
      have silent := headerWritten_perform (w := w) writes
      have still : (w.perform step).2.headerWritten = false := silent.1.trans unwritten
      obtain ⟨rest, whole⟩ := ih still (by simp [writeHeader, still])
      exact ⟨rest, by simp [fileText, silent.2, whole, beforeHeader_cons, writes, after]⟩
    | true =>
      have first : ∃ text, (w.perform step).1 = w.header ++ text := by
        cases step with
        | writeHeader => exact ⟨[], by simp [perform, own]⟩
        | writeClass c => simpa [perform, own] using exists_writeClass_fst w c
        | removeFeature | setApiVersion | setCopyright | flush => cases writes
      obtain ⟨text, begun⟩ := first
      exact ⟨text ++ (w.perform step).2.fileText more,
        by simp [fileText, begun, beforeHeader_cons, writes, after]⟩

/-! ### The header, read again -/

/-- No line of the copyright text holds a line feed. -/
theorem notMem_of_mem_copyrightTexts {w : Writer} {t : List Char} (mem : t ∈ w.copyrightTexts) :
    '\n' ∉ t := by
  have cut : ∃ text line, line ∈ cutLines (· == '\n') text ∧ withoutLineEnd line = t := by
    simp only [copyrightTexts] at mem
    split at mem
    · cases given : w.copyright with
      | none => simp [given] at mem
      | some text => exact ⟨text.toList, by simpa [given, textLines] using mem⟩
    · cases mem
  obtain ⟨text, line, inText, rfl⟩ := cut
  have inner := notMem_dropLast_of_mem_cutLines inText
  unfold withoutLineEnd
  cases ended : beforeTail? ['\n'] line with
  | none =>
    intro inside
    rcases List.eq_nil_or_concat' line with rfl | ⟨front, c, rfl⟩
    · cases inside
    · rw [List.dropLast_concat] at inner
      obtain rfl : '\n' = c := by simpa [inner] using inside
      rw [beforeTail?_append] at ended
      cases ended
  | some front =>
    obtain rfl := beforeTail?_eq_some_iff.1 ended
    rw [List.dropLast_concat] at inner
    cases returned : beforeTail? ['\r'] front with
    | none => simpa [returned] using inner
    | some shorter =>
      obtain rfl := beforeTail?_eq_some_iff.1 returned
      simpa [returned] using fun inside => inner (List.mem_append_left _ inside)

/-- The header without what would be taken for ends of its lines. -/
theorem map_trimLineEnd_headerLines {w : Writer} (known : w.format ∈ Format.newestFirst) :
    w.headerLines.map trimLineEnd =
      [w.format.banner.toList, versionLead ++ trimLineEnd w.apiVersion.toList] ++
        w.absent.map (fun feature => feature.absenceMarker.toList) ++
        (w.copyrightTexts.map trimLineEnd).map (copyrightLead ++ ·) := by
  have banner : trimLineEnd w.format.banner.toList = w.format.banner.toList :=
    trimLineEnd_of_singleLine (singleLine_banner known)
  have version : trimLineEnd (versionLead ++ w.apiVersion.toList) =
      versionLead ++ trimLineEnd w.apiVersion.toList :=
    trimLineEnd_lead "version".toList (c := ' ') (by decide) _
  have marker (feature : Feature) :
      trimLineEnd feature.absenceMarker.toList = feature.absenceMarker.toList :=
    trimLineEnd_of_singleLine (singleLine_marker feature)
  have copyright (t : List Char) : trimLineEnd (copyrightLead ++ t) = copyrightLead ++ trimLineEnd t :=
    trimLineEnd_lead ['#'] (c := ' ') (by decide) t
  simp [headerLines, banner, version, Function.comp_def, marker, copyright]

/-- A line feed comes into the header with the version only. -/
theorem notMem_of_mem_headerLines {w : Writer} (known : w.format ∈ Format.newestFirst)
    (version : '\n' ∉ w.apiVersion.toList) {line : List Char} (mem : line ∈ w.headerLines) :
    '\n' ∉ line := by
  have free {t : List Char} (single : SingleLine t) : '\n' ∉ t := fun inside => (single _ inside).1 rfl
  simp only [headerLines, List.mem_append, List.mem_cons, List.not_mem_nil, or_false,
    List.mem_map] at mem
  rcases mem with ((same | same) | ⟨feature, -, same⟩) | ⟨t, inTexts, same⟩
  · exact same ▸ free (singleLine_banner known)
  · rw [same, List.mem_append, not_or]
    exact ⟨by decide, version⟩
  · exact same ▸ free (singleLine_marker feature)
  · rw [← same, List.mem_append, not_or]
    exact ⟨by decide, notMem_of_mem_copyrightTexts inTexts⟩

/-- The lines of a file that begins with the header of a writer. -/
theorem ofText_header {w : Writer} (known : w.format ∈ Format.newestFirst)
    (version : '\n' ∉ w.apiVersion.toList) (rest : List Char) :
    ofText (w.header ++ rest) = numbered 1 ([w.format.banner.toList,
        versionLead ++ trimLineEnd w.apiVersion.toList] ++
        w.absent.map (fun feature => feature.absenceMarker.toList) ++
        (w.copyrightTexts.map trimLineEnd).map (copyrightLead ++ ·)) ++
      .text (1 + w.headerLines.length) [] :: numbered (1 + w.headerLines.length + 1) (lineTexts rest) := by
  have free : ∀ line ∈ w.headerLines ++ [[]], '\n' ∉ line := by
    intro line mem
    rcases List.mem_append.1 mem with mem | mem
    · exact notMem_of_mem_headerLines known version mem
    · simp_all
  rw [header_eq, ofText_lined_append free, List.map_append, numbered_append, map_trimLineEnd_headerLines known,
    List.append_assoc, ← map_trimLineEnd_headerLines known, List.length_map, List.length_append, ← Nat.add_assoc]
  rfl

/-- What a reader gets from the header of a writer. Of each line it takes what could be an end of the line. -/
def heard (w : Writer) : FileHeader :=
  ⟨some (String.ofList (trim (trimLineEnd w.apiVersion.toList))), w.absent.reverse,
    (w.copyrightTexts.map trimLineEnd).map String.ofList⟩

/-- A file that begins with the header of a writer is opened by a reader of its format. -/
theorem open?_header {w : Writer} (known : w.format ∈ Format.newestFirst)
    (version : '\n' ∉ w.apiVersion.toList) (rest : List Char) :
    Reader.open? (ofText (w.header ++ rest)) =
      .ok (some (Reader.ofFormat w.format (ofText (w.header ++ rest)))) := by
  rw [ofText_header known version]
  simp [Reader.open?, Format.byBanner?_banner known]

/-- The header of a writer is read whatever follows it. -/
theorem readHeader_heard {w : Writer} (known : w.format ∈ Format.newestFirst)
    (version : '\n' ∉ w.apiVersion.toList) (rest : List Char) :
    (Reader.ofFormat w.format (ofText (w.header ++ rest))).readHeader =
      (.ok (), ⟨w.format, .reading, numbered (1 + w.headerLines.length + 1) (lineTexts rest), w.heard⟩) := by
  rw [ofText_header known version]
  exact readHeader_lines known _ w.absent _ 1 _ _

/-- Of the header of a writer a reader gets one thing, whatever follows it. -/
theorem readHeader_header {w : Writer} (known : w.format ∈ Format.newestFirst)
    (version : '\n' ∉ w.apiVersion.toList) :
    ∃ h : FileHeader, h.absent = w.absent.reverse ∧ ∀ rest,
      (Reader.ofFormat w.format (ofText (w.header ++ rest))).readHeader =
        (.ok (), ⟨w.format, .reading, numbered (1 + w.headerLines.length + 1) (lineTexts rest), h⟩) :=
  ⟨w.heard, rfl, readHeader_heard known version⟩

/-- A reader that heard the header of a writer takes as active the features that the writer has. -/
theorem activeFeatures_of_heard {w : Writer} {r : Reader} (format : r.format = w.format)
    (heard : r.header = w.heard) : r.activeFeatures = w.format.features.filter w.hasFeature := by
  rw [Reader.activeFeatures, hasFeature_of_header format (by rw [heard]; rfl), format]
  refine List.filter_congr fun feature listed => ?_
  simp [active, Format.supports, listed]

/-- A file that begins with the header of a writer is opened by a reader, which takes as active the
features that the writer had. -/
theorem activeFeatures_of_header {w : Writer} (known : w.format ∈ Format.newestFirst)
    (version : '\n' ∉ w.apiVersion.toList) (rest : List Char) :
    ∃ r₀ r, Reader.open? (ofText (w.header ++ rest)) = .ok (some r₀) ∧ r₀.readHeader = (.ok (), r) ∧
      r.activeFeatures = w.format.features.filter w.hasFeature :=
  ⟨_, _, open?_header known version rest, readHeader_heard known version rest, activeFeatures_of_heard rfl rfl⟩

/-- A writer that began with all features and left some out has those of its format that it writes. -/
theorem features_after_ofFormat (f : Format) (steps : List WriterStep) :
    f.features.filter ((ofFormat f).after steps).hasFeature = ((ofFormat f).after steps).features := by
  have left := features_after (carried_ofFormat f) steps
  rw [left]
  refine List.filter_congr fun feature listed => ?_
  have listed : feature ∈ (ofFormat f).features := listed
  simp [hasFeature, left, listed]

/-- **What a header tells.** A file that a writer wrote step by step is opened by a reader, which takes as
active the features that the writer had when it wrote the header. The writer ends with these without what
was left out since then, and so is every block written. -/
theorem activeFeatures_fileText {f : Format} (known : f ∈ Format.newestFirst) {steps : List WriterStep}
    (version : '\n' ∉ ((ofFormat f).after (beforeHeader steps)).apiVersion.toList) :
    ∃ r₀ r, Reader.open? (ofText ((ofFormat f).fileText steps)) = .ok (some r₀) ∧
      r₀.readHeader = (.ok (), r) ∧
      r.activeFeatures = ((ofFormat f).after (beforeHeader steps)).features ∧
      ((ofFormat f).after steps).features =
        r.activeFeatures.filter (· ∉ removed (sinceHeader steps)) ∧
      ∀ before c more, steps = before ++ .writeClass c :: more →
        ((ofFormat f).after before).features =
          r.activeFeatures.filter (· ∉ removed (sinceHeader before)) := by
  set w := (ofFormat f).after (beforeHeader steps)
  have format : w.format = f := format_after (ofFormat f) (beforeHeader steps)
  obtain ⟨rest, whole⟩ := fileText_eq_header_append (w := ofFormat f) rfl steps
  obtain ⟨r₀, r, opened, header, features⟩ :=
    activeFeatures_of_header (w := w) (format.symm ▸ known) version rest
  have same : r.activeFeatures = w.features := by
    rw [features, format]
    exact features_after_ofFormat f (beforeHeader steps)
  refine ⟨r₀, r, whole ▸ opened, header, same, ?_, ?_⟩
  · rw [same]
    exact features_after_sinceHeader (carried_ofFormat f) steps
  · rintro before c more rfl
    have writes : (WriterStep.writeClass c).writesHeader = true := rfl
    rw [same, features_after_sinceHeader (carried_ofFormat f) before,
      ← beforeHeader_append_cons writes before more]

/-- Generics are left out before the header, and constants behind it. -/
def lateSteps : List WriterStep :=
  [.removeFeature .tigerInfo, .setApiVersion "1.0", .writeHeader, .removeFeature .constInfo]

/-- The header tells of the generics, and of the constants it does not. -/
theorem activeFeatures_fileText_late :
    '\n' ∉ ((ofFormat .v40).after (beforeHeader lateSteps)).apiVersion.toList ∧
    ∃ r₀ r, Reader.open? (ofText ((ofFormat .v40).fileText lateSteps)) = .ok (some r₀) ∧
      r₀.readHeader = (.ok (), r) ∧ r.activeFeatures = [.constInfo, .listOfHiders] ∧
      ((ofFormat .v40).after lateSteps).features = [.listOfHiders] := by
  have version : '\n' ∉ ((ofFormat .v40).after (beforeHeader lateSteps)).apiVersion.toList := by decide
  obtain ⟨r₀, r, opened, header, features, final, -⟩ := activeFeatures_fileText (by decide) version
  have active : r.activeFeatures = [.constInfo, .listOfHiders] := features.trans (by decide)
  exact ⟨version, r₀, r, opened, header, active, final.trans (by rw [active]; decide)⟩

/-- A feature that is left out behind the header is active for a reader, although the writer has it no
more. -/
theorem activeFeatures_ne_features :
    ∃ r₀ r, Reader.open? (ofText ((ofFormat .v43).fileText [.writeHeader, .removeFeature .constInfo])) =
        .ok (some r₀) ∧
      r₀.readHeader = (.ok (), r) ∧
      r.activeFeatures ≠ ((ofFormat .v43).after [.writeHeader, .removeFeature .constInfo]).features := by
  refine ⟨_, _, rfl, rfl, ?_⟩
  decide

end Writer
end ApiSurface
