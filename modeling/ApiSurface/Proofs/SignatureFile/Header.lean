import ApiSurface.Proofs.SignatureFile.Blocks

/-!
The header of a file, written and read, and with it whole files. Main statements: the header gives back
the version, the features that were left out and the copyright text (`readHeader_headerLines`), so that
reader and writer agree on what is active (`hasFeature_of_header`), and a file is read back block by block
(`readAll_file`).
-/

namespace ApiSurface

open ApiSurface.Text ApiSurface.SignatureFile

namespace Writer

/-- The lines of the copyright text without what they begin with. -/
def copyrightTexts (w : Writer) : List (List Char) :=
  if w.hasFeature .copyRight then (w.copyright.map fun text => textLines text.toList).getD [] else []

/-- The features that the header says were left out. -/
def absent (w : Writer) : List Feature := w.format.features.filter (!w.hasFeature ·)

/-- The lines of the header, without the empty one behind it. -/
def headerLines (w : Writer) : List (List Char) :=
  [w.format.banner.toList, versionLead ++ w.apiVersion.toList] ++
    w.absent.map (fun feature => feature.absenceMarker.toList) ++
    w.copyrightTexts.map (copyrightLead ++ ·)

theorem copyrightLines_eq (w : Writer) : w.copyrightLines = w.copyrightTexts.map (copyrightLead ++ ·) := by
  unfold copyrightLines copyrightTexts copyrightLead
  split
  · cases w.copyright with
    | none => rfl
    | some text => rfl
  · rfl

theorem header_eq (w : Writer) : w.header = (w.headerLines ++ [[]]).flatMap lined := by
  unfold header headerLines absent versionLead
  rw [copyrightLines_eq]

/-- The features that are written and that the format carries. -/
def active (w : Writer) (feature : Feature) : Bool := w.format.supports feature && w.hasFeature feature

/-- Where a writer has features of its format only, these are active. -/
theorem active_eq_hasFeature {w : Writer} (part : w.features ⊆ w.format.features) : w.active = w.hasFeature := by
  funext feature
  cases written : w.hasFeature feature with
  | false => simp [active, written]
  | true =>
    have listed : feature ∈ w.format.features := part (by simpa [hasFeature] using written)
    simp [active, written, Format.supports, listed]

/-- What the header says, as a reader gives it. -/
def said (w : Writer) : FileHeader :=
  ⟨some (String.ofList (trim w.apiVersion.toList)), w.absent.reverse, w.copyrightTexts.map String.ofList⟩

/-- The header is written once. -/
theorem writeHeader_of_headerWritten {w : Writer} (written : w.headerWritten = true) :
    w.writeHeader = ([], w) := by
  simp [writeHeader, written]

theorem headerWritten_writeHeader (w : Writer) : w.writeHeader.2.headerWritten = true := by
  unfold writeHeader
  split <;> simp_all

theorem writeHeader_writeHeader (w : Writer) : w.writeHeader.2.writeHeader = ([], w.writeHeader.2) :=
  writeHeader_of_headerWritten w.headerWritten_writeHeader

@[simp] theorem format_writeHeader (w : Writer) : w.writeHeader.2.format = w.format := by
  unfold writeHeader
  split <;> rfl

@[simp] theorem features_writeHeader (w : Writer) : w.writeHeader.2.features = w.features := by
  unfold writeHeader
  split <;> rfl

theorem block_writeHeader (w : Writer) (c : ClassDescription) : w.writeHeader.2.block c = w.block c := by
  unfold writeHeader
  split <;> rfl

theorem hasFeature_writeHeader (w : Writer) : w.writeHeader.2.hasFeature = w.hasFeature := by
  funext feature
  simp [hasFeature]

end Writer

namespace SignatureFile

/-! ### Lines of the header -/

theorem trimEnd_banner {f : Format} (known : f ∈ Format.newestFirst) :
    trimEnd f.banner.toList = f.banner.toList := by
  simp only [Format.newestFirst, List.mem_cons, List.not_mem_nil, or_false] at known
  rcases known with rfl | rfl | rfl | rfl | rfl | rfl <;> decide

theorem singleLine_banner {f : Format} (known : f ∈ Format.newestFirst) : SingleLine f.banner.toList := by
  simp only [Format.newestFirst, List.mem_cons, List.not_mem_nil, or_false] at known
  rcases known with rfl | rfl | rfl | rfl | rfl | rfl <;> decide

theorem singleLine_marker (feature : Feature) : SingleLine feature.absenceMarker.toList := by
  cases feature <;> decide

theorem readHeaderLines_step {h h' : FileHeader} {n : Nat} {cs : List Char} {rest : List SourceLine}
    (filled : allBlank cs = false) (line : headerLine? h cs = some h') :
    readHeaderLines h (.text n cs :: rest) = readHeaderLines h' rest := by
  simp [readHeaderLines, filled, line]

theorem headerLine?_version (h : FileHeader) (version : List Char) :
    headerLine? h (versionLead ++ version) =
      some { h with apiVersion := some (String.ofList (trim version)) } := by
  simp [headerLine?, afterLead?_append]

theorem headerLine?_marker (h : FileHeader) (feature : Feature) :
    headerLine? h feature.absenceMarker.toList = some { h with absent := feature :: h.absent } := by
  cases feature <;> rfl

/-- A line of the copyright text is no mark of a feature. -/
theorem ofAbsenceMarker?_copyright (text : List Char) :
    Feature.ofAbsenceMarker? (trimEnd (copyrightLead ++ text)) = none := by
  have noName {word : List Char} (other : ∀ c ∈ word.head?, c = ' ') :
      Feature.ofName? (String.ofList word) = none := by
    rw [Feature.ofName?, List.find?_eq_none]
    intro feature _ same
    have chars : feature.name.toList = word := by simpa using congrArg String.toList (beq_iff_eq.1 same)
    have start := other
    rw [← chars] at start
    cases feature <;> simp [Feature.name] at start
  obtain ⟨tail, whole, -⟩ := exists_eq_trimEnd_append (copyrightLead ++ text)
  cases trimmed : trimEnd (copyrightLead ++ text) with
  | nil => simp [Feature.ofAbsenceMarker?, afterLead?, List.isPrefixOf?]
  | cons c word =>
    have first : c = '#' ∧ ∀ d ∈ word.head?, d = ' ' := by
      rw [trimmed] at whole
      cases word with
      | nil =>
        obtain ⟨rfl, -⟩ : '#' = c ∧ ' ' :: text = tail := by simpa [copyrightLead] using whole
        simp
      | cons d word =>
        obtain ⟨rfl, rfl, -⟩ : '#' = c ∧ ' ' = d ∧ text = word ++ tail := by
          simpa [copyrightLead] using whole
        simp
    obtain ⟨rfl, next⟩ := first
    have cut : afterLead? ['#'] ('#' :: word) = some word := afterLead?_append ['#'] word
    rw [Feature.ofAbsenceMarker?, cut]
    exact noName next

theorem headerLine?_copyright (h : FileHeader) (text : List Char) :
    headerLine? h (copyrightLead ++ text) =
      some { h with copyright := h.copyright ++ [String.ofList text] } := by
  have noVersion : afterLead? versionLead (copyrightLead ++ text) = none := rfl
  simp only [headerLine?, noVersion, ofAbsenceMarker?_copyright, afterLead?_append]

theorem readHeaderLines_markers (features : List Feature) (h : FileHeader) (n : Nat)
    (rest : List SourceLine) :
    readHeaderLines h (numbered n (features.map fun feature => feature.absenceMarker.toList) ++ rest) =
      readHeaderLines { h with absent := features.reverse ++ h.absent } rest := by
  induction features generalizing h n with
  | nil => rfl
  | cons feature features ih =>
    have filled : allBlank feature.absenceMarker.toList = false := by cases feature <;> decide
    rw [List.map_cons, numbered_cons, List.cons_append,
      readHeaderLines_step filled (headerLine?_marker h feature), ih]
    simp

theorem readHeaderLines_copyright (texts : List (List Char)) (h : FileHeader) (n : Nat)
    (rest : List SourceLine) :
    readHeaderLines h (numbered n (texts.map (copyrightLead ++ ·)) ++ rest) =
      readHeaderLines { h with copyright := h.copyright ++ texts.map String.ofList } rest := by
  induction texts generalizing h n with
  | nil => simp
  | cons text texts ih =>
    have filled : allBlank (copyrightLead ++ text) = false := rfl
    rw [List.map_cons, numbered_cons, List.cons_append,
      readHeaderLines_step filled (headerLine?_copyright h text), ih]
    simp

/-- The lines of a header tell their version, features and copyright text, and the reader stops behind
them. -/
theorem readHeader_lines {f : Format} (known : f ∈ Format.newestFirst) (version : List Char)
    (absent : List Feature) (texts : List (List Char)) (n k : Nat) (rest : List SourceLine) :
    (Reader.ofFormat f (numbered n ([f.banner.toList, versionLead ++ version] ++
        absent.map (fun feature => feature.absenceMarker.toList) ++
        texts.map (copyrightLead ++ ·)) ++ .text k [] :: rest)).readHeader =
      (.ok (), ⟨f, .reading, rest,
        ⟨some (String.ofList (trim version)), absent.reverse, texts.map String.ofList⟩⟩) := by
  have banner : String.ofList (trimEnd f.banner.toList) = f.banner := by
    rw [trimEnd_banner known, String.ofList_toList]
  have filled : allBlank (versionLead ++ version) = false := rfl
  have lines : readHeaderLines .blank (.text (n + 1) (versionLead ++ version) ::
      (numbered (n + 2) (absent.map (fun feature => feature.absenceMarker.toList) ++
        texts.map (copyrightLead ++ ·)) ++ .text k [] :: rest)) =
      (.ok (), ⟨some (String.ofList (trim version)), absent.reverse, texts.map String.ofList⟩, rest) := by
    rw [readHeaderLines_step filled (headerLine?_version _ _), numbered_append, List.append_assoc,
      readHeaderLines_markers, readHeaderLines_copyright]
    simp [readHeaderLines, allBlank, FileHeader.blank]
  simp only [Reader.readHeader, Reader.ofFormat, ne_eq, not_true, if_false,
    List.cons_append, List.nil_append, numbered_cons, banner]
  simp only [show n + 1 + 1 = n + 2 from rfl, lines]

/-- The header is read back, and the reader stops behind it. -/
theorem readHeader_headerLines {w : Writer} (known : w.format ∈ Format.newestFirst) (n k : Nat)
    (rest : List SourceLine) :
    (Reader.ofFormat w.format (numbered n w.headerLines ++ .text k [] :: rest)).readHeader =
      (.ok (), ⟨w.format, .reading, rest, w.said⟩) :=
  readHeader_lines known w.apiVersion.toList w.absent w.copyrightTexts n k rest

/-- Reader and writer agree on what is active. -/
theorem hasFeature_of_header {r : Reader} {w : Writer} (format : r.format = w.format)
    (absent : r.header.absent = w.absent.reverse) : r.hasFeature = w.active := by
  funext feature
  simp only [Reader.hasFeature, format, absent, Writer.active, Writer.absent]
  cases supported : w.format.supports feature with
  | false => rfl
  | true =>
    have listed : feature ∈ w.format.features := by simpa [Format.supports] using supported
    cases written : w.hasFeature feature <;> simp [written, listed]

/-! ### Whole files -/

/-- The lines of a file: the header and the blocks, with an empty line behind each. -/
def fileLines (w : Writer) (blocks : List (List (List Char))) : List (List Char) :=
  w.headerLines ++ [[]] ++ blocks.flatMap (· ++ [[]])

/-- Readers that agree on the next block agree on all blocks. -/
theorem readUpTo_congr {r r' : Reader} (same : r.readNext = r'.readNext) (limit : Nat) :
    r.readUpTo (limit + 1) = r'.readUpTo (limit + 1) := by
  simp only [Reader.readUpTo, same]

/-- Reading goes on behind the header. -/
theorem readNext_of_readHeader {r r' : Reader} (opened : r.readHeader = (.ok (), r'))
    (reading : r'.phase = .reading) : r.readNext = r'.readNext := by
  have again : r'.readHeader = (.ok (), r') := by simp [Reader.readHeader, reading]
  simp only [Reader.readNext, opened, again]

theorem readUpTo_of_readHeader {r r' : Reader} (opened : r.readHeader = (.ok (), r'))
    (reading : r'.phase = .reading) (limit : Nat) : r.readUpTo (limit + 1) = r'.readUpTo (limit + 1) :=
  readUpTo_congr (readNext_of_readHeader opened reading) limit

/-- Reading goes on behind blocks that were read. -/
theorem readUpTo_add {r r' : Reader} {cs : List ClassDescription}
    (front : r.readUpTo cs.length = (.ok cs, r')) (limit : Nat) :
    r.readUpTo (cs.length + limit) =
      ((r'.readUpTo limit).1.map (cs ++ ·), (r'.readUpTo limit).2) := by
  rw [← Reader.readsUpTo_iff] at front
  induction cs generalizing r with
  | nil =>
    cases front
    cases later : r'.readUpTo limit with
    | mk result last => cases result <;> simp [later, Except.map]
  | cons c cs ih =>
    cases front with
    | reads next more =>
      rw [List.length_cons, Nat.add_right_comm, Reader.readUpTo, next]
      dsimp only
      rw [ih more]
      cases (r'.readUpTo limit).1 <;> rfl

/-- The lines of a header and of blocks are lines. -/
theorem singleLine_fileLines {w : Writer} (known : w.format ∈ Format.newestFirst)
    (version : SingleLine w.apiVersion.toList) (texts : ∀ t ∈ w.copyrightTexts, SingleLine t)
    {blocks : List (List (List Char))} (single : ∀ b ∈ blocks, ∀ line ∈ b, SingleLine line) :
    ∀ line ∈ fileLines w blocks, SingleLine line := by
  intro line mem
  simp only [fileLines, Writer.headerLines, List.mem_append, List.mem_cons, List.not_mem_nil, or_false,
    List.mem_map, List.mem_flatMap] at mem
  rcases mem with ((((rfl | rfl) | ⟨feature, -, rfl⟩) | ⟨t, inList, rfl⟩) | rfl) | ⟨b, inBlocks, mem | rfl⟩
  · exact singleLine_banner known
  · exact SingleLine.append_iff.2 ⟨by unfold versionLead; simp, version⟩
  · exact singleLine_marker feature
  · exact SingleLine.append_iff.2 ⟨by simp [copyrightLead], texts t inList⟩
  · exact .nil
  · exact single b inBlocks line mem
  · exact .nil

/-- A reader that has read the header of a file is behind it, at the blocks. -/
theorem readHeader_file {w : Writer} (known : w.format ∈ Format.newestFirst)
    (version : SingleLine w.apiVersion.toList) (texts : ∀ t ∈ w.copyrightTexts, SingleLine t)
    {blocks : List (List (List Char))} (single : ∀ b ∈ blocks, ∀ line ∈ b, SingleLine line) :
    (Reader.ofFormat w.format (ofText ((fileLines w blocks).flatMap Writer.lined))).readHeader =
      (.ok (), ⟨w.format, .reading, numbered (1 + w.headerLines.length + 1) (blocks.flatMap (· ++ [[]])), w.said⟩) := by
  rw [ofText_lined (singleLine_fileLines known version texts single), fileLines, List.append_assoc,
    numbered_append, List.singleton_append, numbered_cons]
  exact readHeader_headerLines known 1 (1 + w.headerLines.length) _

/-- A file is read back block by block. -/
theorem readAll_file {w : Writer} (known : w.format ∈ Format.newestFirst)
    (version : SingleLine w.apiVersion.toList) (texts : ∀ t ∈ w.copyrightTexts, SingleLine t)
    (blocks : List (List (List Char) × ClassDescription))
    (single : ∀ b ∈ blocks, ∀ line ∈ b.1, SingleLine line)
    (each : ∀ b ∈ blocks, ReadsBlock w.format w.active b.1 b.2) :
    ∃ r', (Reader.ofFormat w.format
        (ofText ((fileLines w (blocks.map Prod.fst)).flatMap Writer.lined))).readAll =
          (.ok (blocks.map Prod.snd), r') ∧ r'.format = w.format ∧ r'.header = w.said := by
  have singles : ∀ b ∈ blocks.map Prod.fst, ∀ line ∈ b, SingleLine line := by
    intro b mem
    obtain ⟨b, inBlocks, rfl⟩ := List.mem_map.1 mem
    exact single b inBlocks
  have opened := readHeader_file known version texts singles
  have agree : Reader.hasFeature ⟨w.format, .reading, numbered (1 + w.headerLines.length + 1)
      ((blocks.map Prod.fst).flatMap (· ++ [[]])), w.said⟩ = w.active := hasFeature_of_header rfl rfl
  rw [Reader.readAll, readUpTo_of_readHeader opened rfl]
  refine readUpTo_blocks blocks (l := 0) rfl (by rw [agree]; exact each) ?_
    (.inl (by rw [List.flatMap_map]))
  have counted : blocks.length ≤ (blocks.flatMap fun b => b.1 ++ [[]]).length := by
    rw [← List.length_map (fun b : List (List Char) × ClassDescription => (b.1 ++ [[]]).length),
      List.length_flatMap]
    refine List.length_le_sum_of_one_le _ fun size mem => ?_
    obtain ⟨b, -, rfl⟩ := List.mem_map.1 mem
    simp
  rw [Reader.ofFormat, ofText_lined (singleLine_fileLines known version texts singles), length_numbered, fileLines,
    List.flatMap_map]
  simp only [List.length_append]
  omega

end SignatureFile
end ApiSurface
