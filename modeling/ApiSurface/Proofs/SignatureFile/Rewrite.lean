import ApiSurface.Proofs.SignatureFile.Accepted
import ApiSurface.Proofs.SignatureFile.ReadBack
import ApiSurface.Proofs.SignatureFile.RoundTrip

/-!
A file that was read is written again. Of the copyright text the last line is lost if it is empty, as an end
of a line that is there or not. Main statements: copyright lines are written again up to that
(`textLines_join`), and a file that was accepted is read from what is written of it, which is then written
as it is (`readAll_rewritten`).
-/

namespace ApiSurface

open ApiSurface.Text ApiSurface.SignatureFile

namespace Writer

/-- A writer for what a reader gives: of its format, with the features that it takes as active and with its
version and copyright text. -/
def rewriter (r : Reader) : Writer :=
  { ofFormat r.format with
    features := r.activeFeatures
    apiVersion := r.header.apiVersion.getD ""
    copyright := some ("\n".intercalate r.header.copyright) }

/-- What is active for the reader is written. -/
theorem hasFeature_rewriter (r : Reader) : (rewriter r).hasFeature = r.hasFeature := by
  funext feature
  rw [Bool.eq_iff_iff]
  simp [rewriter, hasFeature, Reader.activeFeatures, Reader.hasFeature, Format.supports]

/-! ### Copyright lines -/

theorem beforeTail?_eq_none {line : List Char} {c : Char} (other : c ∉ line) : beforeTail? [c] line = none := by
  rw [Option.eq_none_iff_forall_ne_some]
  intro front same
  exact other (by simp [beforeTail?_eq_some_iff.1 same])

/-- A line is found behind its end, and it has none of its own. -/
theorem withoutLineEnd_lined {line : List Char} (single : SingleLine line) :
    withoutLineEnd (line ++ ['\n']) = line ∧ withoutLineEnd line = line := by
  have noEnd (c : Char) (isEnd : c = '\n' ∨ c = '\r') : beforeTail? [c] line = none := by
    refine beforeTail?_eq_none fun mem => ?_
    have other := single c mem
    rcases isEnd with rfl | rfl <;> simp at other
  simp [withoutLineEnd, beforeTail?_append, noEnd]

/-- The lines without a last one that is empty. -/
def withoutLastEmpty (ls : List (List Char)) : List (List Char) :=
  if ls.getLast? = some [] then ls.dropLast else ls

theorem mem_of_mem_withoutLastEmpty {ls : List (List Char)} {line : List Char}
    (mem : line ∈ withoutLastEmpty ls) : line ∈ ls := by
  unfold withoutLastEmpty at mem
  split at mem
  · exact List.dropLast_subset _ mem
  · exact mem

/-- Lines that are joined come back, but for a last one that is empty. -/
theorem textLines_join {ls : List (List Char)} (single : ∀ line ∈ ls, SingleLine line) :
    textLines (join ['\n'] ls) = withoutLastEmpty ls := by
  unfold withoutLastEmpty
  induction ls with
  | nil => rfl
  | cons line ls ih =>
    have here := withoutLineEnd_lined (single line (by simp))
    have free : '\n' ∉ line := fun mem => (single line (by simp) '\n' mem).1 rfl
    cases ls with
    | nil =>
      cases line with
      | nil => rfl
      | cons c line =>
        have whole : cutLines (· == '\n') (c :: line) = [c :: line] := by
          have inner : ∀ a ∈ c :: line, (a == '\n') = false :=
            fun a mem => by simpa using fun same : a = '\n' => free (same ▸ mem)
          have cut := cutLines_append_of_inner (List.cons_ne_nil c line) inner []
          simpa [cutLines] using cut
        simp [textLines, join, whole, here.2]
    | cons next more =>
      have later := ih fun line mem => single line (by simp [mem])
      rw [textLines] at later
      rw [join_cons_cons, textLines, List.append_assoc, List.singleton_append, cutLines_append free, List.map_cons,
        later, here.1]
      simp only [List.getLast?_cons_cons]
      split <;> simp [List.dropLast]

/-- Without a last line that is empty, a text that does not end in two of these has none. -/
theorem withoutLastEmpty_withoutLastEmpty {ls : List (List Char)} (few : ¬ [[], []] <:+ ls) :
    withoutLastEmpty (withoutLastEmpty ls) = withoutLastEmpty ls := by
  by_cases last : ls.getLast? = some []
  · obtain ⟨front, rfl⟩ := List.getLast?_eq_some_iff.1 last
    have other : front.getLast? ≠ some [] := by
      intro again
      obtain ⟨more, rfl⟩ := List.getLast?_eq_some_iff.1 again
      exact few ⟨more, by simp⟩
    simp [withoutLastEmpty, other]
  · simp [withoutLastEmpty, last]

end Writer

/-! ### What a header says -/

namespace SignatureFile

/-- The texts of a header come from lines. -/
structure FromHeader (h : FileHeader) : Prop where
  version : ∀ v ∈ h.apiVersion, SingleLine v.toList ∧ trim v.toList = v.toList
  copyright : ∀ t ∈ h.copyright, SingleLine t.toList

theorem FromHeader.headerLine? {h h' : FileHeader} {cs : List Char} (old : FromHeader h) (single : SingleLine cs)
    (line : headerLine? h cs = some h') : FromHeader h' := by
  unfold SignatureFile.headerLine? at line
  split at line
  · rename_i version lead
    obtain rfl := Option.some.inj line
    refine ⟨fun v mem => ?_, old.copyright⟩
    obtain rfl := Option.some.inj mem
    have part : SingleLine version := by
      rw [afterLead?_eq_some_iff.1 lead, SingleLine.append_iff] at single
      exact single.2
    rw [String.toList_ofList]
    exact ⟨part.subset fun _ => mem_of_mem_trim, (trimmed_trim version).trim_eq⟩
  · split at line
    · obtain rfl := Option.some.inj line
      exact ⟨old.version, old.copyright⟩
    · split at line
      · rename_i text lead
        obtain rfl := Option.some.inj line
        refine ⟨old.version, fun t mem => ?_⟩
        rcases List.mem_append.1 mem with mem | mem
        · exact old.copyright t mem
        · obtain rfl := List.mem_singleton.1 mem
          rw [afterLead?_eq_some_iff.1 lead, SingleLine.append_iff] at single
          simpa using single.2
      · split at line
        · obtain rfl := Option.some.inj line
          exact old
        · cases line

theorem FromHeader.readHeaderLines {h h' : FileHeader} {lines rest : List SourceLine} (old : FromHeader h)
    (single : ∀ n t, .text n t ∈ lines → SingleLine t)
    (read : readHeaderLines h lines = (.ok (), h', rest)) : FromHeader h' := by
  induction lines generalizing h with
  | nil =>
    cases read
    exact old
  | cons line lines ih =>
    have later : ∀ n t, .text n t ∈ lines → SingleLine t := fun n t mem => single n t (by simp [mem])
    cases line with
    | undecodable => cases read
    | text n cs =>
      rw [SignatureFile.readHeaderLines] at read
      split at read
      · cases read
        exact old
      · split at read
        · rename_i found
          exact ih (old.headerLine? (single n cs (by simp)) found) later read
        · cases read
          exact old

/-- The header of a file that was read comes from its lines. -/
theorem fromHeader_of_readAll {f : Format} {lines : List SourceLine} {cs : List ClassDescription} {r : Reader}
    (single : ∀ n t, .text n t ∈ lines → SingleLine t)
    (read : (Reader.ofFormat f lines).readAll = (.ok cs, r)) : FromHeader r.header := by
  have blank : FromHeader .blank := ⟨by simp [FileHeader.blank], by simp [FileHeader.blank]⟩
  obtain ⟨behind, opened, phase, read⟩ := exists_of_readAll read
  obtain ⟨-, same, -⟩ := of_readUpTo (by simp [phase]) read
  rw [same]
  simp only [Reader.readHeader, Reader.ofFormat, ne_eq, not_true_eq_false, if_false] at opened
  split at opened
  · cases opened
  · cases opened
  · rename_i first rest _
    by_cases banner : String.ofList (trimEnd first) = f.banner
    · cases found : readHeaderLines .blank rest with
      | mk result more =>
        obtain ⟨header, left⟩ := more
        simp only [banner, not_true_eq_false, if_false, found] at opened
        cases result with
        | error e => cases opened
        | ok =>
          cases opened
          exact blank.readHeaderLines (fun n t mem => single n t (List.mem_cons_of_mem _ mem)) found
    · simp [banner] at opened

end SignatureFile

namespace Writer

variable {r : Reader}

theorem singleLine_version_rewriter (header : SignatureFile.FromHeader r.header) :
    SingleLine (rewriter r).apiVersion.toList ∧
      trim (rewriter r).apiVersion.toList = (rewriter r).apiVersion.toList := by
  cases version : r.header.apiVersion with
  | none => simp [rewriter, version, trim]
  | some v => simpa [rewriter, version] using header.version v version

/-- The copyright text is written again up to a last line that is empty. -/
theorem copyrightTexts_rewriter (header : SignatureFile.FromHeader r.header) :
    (rewriter r).copyrightTexts =
      if r.hasFeature .copyRight then withoutLastEmpty (r.header.copyright.map String.toList) else [] := by
  have text : (rewriter r).copyright.map (fun text => textLines text.toList) =
      some (textLines (join ['\n'] (r.header.copyright.map String.toList))) := by
    simp [rewriter, String.toList_intercalate, join]
  have single : ∀ line ∈ r.header.copyright.map String.toList, SingleLine line := by
    intro line mem
    obtain ⟨t, inList, rfl⟩ := List.mem_map.1 mem
    exact header.copyright t inList
  rw [copyrightTexts, hasFeature_rewriter, text, Option.getD_some, textLines_join single]

theorem singleLine_copyrightTexts_rewriter (header : SignatureFile.FromHeader r.header) :
    ∀ t ∈ (rewriter r).copyrightTexts, SingleLine t := by
  intro t mem
  rw [copyrightTexts_rewriter header] at mem
  split at mem
  · obtain ⟨text, inList, rfl⟩ := List.mem_map.1 (mem_of_mem_withoutLastEmpty mem)
    exact header.copyright text inList
  · cases mem

/-- What a file says that was written again comes from its lines. -/
theorem fromHeader_said (header : SignatureFile.FromHeader r.header) :
    SignatureFile.FromHeader (rewriter r).said := by
  obtain ⟨single, trimmed⟩ := singleLine_version_rewriter header
  refine ⟨fun v mem => ?_, fun t mem => ?_⟩
  · obtain rfl := Option.some.inj mem
    rw [trimmed, String.ofList_toList]
    exact ⟨single, trimmed⟩
  · obtain ⟨text, inList, rfl⟩ := List.mem_map.1 mem
    simpa using singleLine_copyrightTexts_rewriter header text inList

/-- A header that a reader found in what it had written again is written as it is, unless its copyright text
ended in two empty lines. -/
theorem headerLines_rewriter (header : SignatureFile.FromHeader r.header) {r' : Reader}
    (format : r'.format = r.format) (said : r'.header = (rewriter r).said)
    (features : r'.hasFeature = r.hasFeature)
    (few : r.hasFeature .copyRight → ¬ ["", ""] <:+ r.header.copyright) :
    (rewriter r').headerLines = (rewriter r).headerLines := by
  obtain ⟨-, trimmed⟩ := singleLine_version_rewriter header
  have version : (rewriter r').apiVersion = (rewriter r).apiVersion := by
    have given : (rewriter r').apiVersion = String.ofList (trim (rewriter r).apiVersion.toList) := by
      rw [rewriter, said]
      rfl
    rw [given, trimmed, String.ofList_toList]
  have header' : SignatureFile.FromHeader r'.header := said ▸ fromHeader_said header
  have copyright : (rewriter r').copyrightTexts = (rewriter r).copyrightTexts := by
    have given : r'.header.copyright.map String.toList = (rewriter r).copyrightTexts := by
      simp [said, Writer.said, Function.comp_def]
    rw [copyrightTexts_rewriter header', features, given, copyrightTexts_rewriter header]
    split
    · rename_i on
      refine withoutLastEmpty_withoutLastEmpty fun two => few on ?_
      obtain ⟨front, same⟩ := two
      have texts := congrArg (List.map String.ofList) same
      simp only [List.map_append, List.map_map, Function.comp_def, String.ofList_toList, List.map_id'] at texts
      exact ⟨front.map String.ofList, texts⟩
    · rfl
  have absent : (rewriter r').absent = (rewriter r).absent := by
    simp only [Writer.absent, hasFeature_rewriter, features]
    rw [show (rewriter r').format = r'.format from rfl, format]
    rfl
  rw [headerLines, headerLines, version, copyright, absent,
    show (rewriter r').format = r'.format from rfl, format]
  rfl

end Writer

open ClassDescription SignatureFile

/-! ### Files that are written again -/

/-- A readable class is kept as it is, if generics are. -/
theorem ClassDescription.Readable.project?_eq {active : Feature → Bool} {c : ClassDescription}
    (h : c.Readable active) (generics : active .tigerInfo = true) : c.project? active = some c := by
  cases h with
  | ofClass printable carried =>
    rw [project?_of_class active printable.noModule, printable.project_eq carried generics]
  | ofModule on single => exact project?_of_module active rfl on

/-- What was read from a file is readable without its empty lists. -/
theorem SignatureFile.WasRead.readable {active : Feature → Bool} {c : ClassDescription} (h : WasRead active True c)
    (modules : ∀ m ∈ c.moduleInfo, ∀ t ∈ m.texts, SingleLine t.toList) : c.withoutEmpty.Readable active := by
  rcases h with ⟨m, rfl, on⟩ | read
  · exact .ofModule on (modules m rfl)
  · exact .ofClass (read.printable trivial) read.carried_withoutEmpty

theorem SignatureFile.WasRead.project?_eq {active : Feature → Bool} {c : ClassDescription} (h : WasRead active True c)
    (generics : active .tigerInfo = true) : c.project? active = some c.withoutEmpty := by
  rcases h with ⟨m, rfl, on⟩ | read
  · exact project?_of_module active rfl on
  · rw [project?_of_class active read.noModule, read.project_eq generics]

theorem Reader.supports_generics {r : Reader} (modern : r.format ∈ Format.modern)
    (generics : .tigerInfo ∉ r.header.absent) : r.hasFeature .tigerInfo = true := by
  have supported : r.format.supports .tigerInfo = true := by
    simp only [Format.modern, List.mem_cons, List.not_mem_nil, or_false] at modern
    rcases modern with same | same | same | same <;> rw [same] <;> decide
  simp [Reader.hasFeature, supported, generics]

/-- What a rewriter with generics keeps of some classes is read from what it writes, if it is readable. -/
theorem readAll_of_rewriter {r : Reader} (modern : r.format ∈ Format.modern)
    (on : r.hasFeature .tigerInfo = true) (header : FromHeader r.header) {cs ds : List ClassDescription}
    (kept : cs.filterMap (project? r.hasFeature) = ds) (readable : ∀ d ∈ ds, d.Readable r.hasFeature) :
    let text := (fileLines (Writer.rewriter r) ((ds.map arrange).map ClassDescription.lines)).flatMap Writer.lined
    (Writer.rewriter r).writeAll cs = .ok text ∧
      ∃ r', (Reader.ofFormat r.format (ofText text)).readAll = (.ok (ds.map arrange), r') ∧
        r'.format = r.format ∧ r'.header = (Writer.rewriter r).said := by
  subst kept
  have features := Writer.hasFeature_rewriter r
  have erases : ∀ c ∈ cs, c.moduleInfo = none → c.ErasesThrows (Writer.rewriter r).hasFeature :=
    fun c _ _ left => by simp [features, on] at left
  have found := readAll_of_writeAll (w := Writer.rewriter r)
    (Format.mem_newestFirst_of_modern modern) (Format.rules_of_modern modern) (List.filter_subset_self _) rfl
    (Writer.singleLine_version_rewriter header).1 (Writer.singleLine_copyrightTexts_rewriter header) erases
    (features.symm ▸ readable)
  rw [features] at found
  exact found

/-- The reader of what was written again takes the same features as active. -/
theorem hasFeature_of_said {r r' : Reader} (format : r'.format = r.format)
    (said : r'.header = (Writer.rewriter r).said) : r'.hasFeature = r.hasFeature := by
  rw [hasFeature_of_header (w := Writer.rewriter r) format (by rw [said]; rfl)]
  funext feature
  simp only [Writer.active, Writer.hasFeature_rewriter]
  rw [show (Writer.rewriter r).format = r.format from rfl, Reader.hasFeature, ← Bool.and_assoc, Bool.and_self]

/-- **Files are rewritten without loss.** A file of a modern format with generics that is accepted, and in
which carriage returns are ends of lines only, can be written again; what is written is accepted and gives
the same classes and modules up to order and empty lists of hidden names. Unless its copyright text ends in
two empty lines, what is written of these is the same text. -/
theorem readAll_rewritten {f : Format} (modern : f ∈ Format.modern) {text : List Char}
    {cs : List ClassDescription} {r : Reader}
    (read : (Reader.ofFormat f (ofText text)).readAll = (.ok cs, r))
    (generics : .tigerInfo ∉ r.header.absent) (single : ∀ n t, .text n t ∈ ofText text → SingleLine t)
    (modules : ∀ c ∈ cs, ∀ m ∈ c.moduleInfo, ∀ t ∈ m.texts, SingleLine t.toList) :
    ∃ written ds r', (Writer.rewriter r).writeAll cs = .ok written ∧
      (Reader.ofFormat f (ofText written)).readAll = (.ok ds, r') ∧
      List.Forall₂ SameUpToOrder ds (cs.map withoutEmpty) ∧
      ((r.hasFeature .copyRight → ¬ ["", ""] <:+ r.header.copyright) →
        (Writer.rewriter r').writeAll ds = .ok written) := by
  have one : True → f.rules = [] ∧ ∀ n t, .text n t ∈ ofText text → SingleLine t :=
    fun _ => ⟨Format.rules_of_modern modern, single⟩
  obtain ⟨rfl, each⟩ := wasRead_of_readAll one read
  have header := fromHeader_of_readAll single read
  have on := Reader.supports_generics modern generics
  have kept : cs.filterMap (project? r.hasFeature) = cs.map withoutEmpty := by
    rw [← List.filterMap_eq_map]
    exact List.filterMap_congr fun c mem => (each c mem).project?_eq on
  have readable : ∀ d ∈ cs.map withoutEmpty, d.Readable r.hasFeature := by
    intro d mem
    obtain ⟨c, inList, rfl⟩ := List.mem_map.1 mem
    exact (each c inList).readable (modules c inList)
  obtain ⟨written, r', again, format, said⟩ := readAll_of_rewriter modern on header kept readable
  refine ⟨_, _, r', written, again, ?_, fun few => ?_⟩
  · rw [List.map_map, List.forall₂_map_left_iff, List.forall₂_map_right_iff, List.forall₂_same]
    exact fun c _ => c.withoutEmpty.sameUpToOrder_arrange
  · -- What was read is arranged and readable: nothing of it is left out or moved when it is written.
    have features := hasFeature_of_said format said
    have arranged : ∀ d ∈ (cs.map withoutEmpty).map arrange, d.Readable r'.hasFeature ∧ d.arrange = d := by
      intro d mem
      obtain ⟨e, inList, rfl⟩ := List.mem_map.1 mem
      exact ⟨features ▸ (readable e inList).arrange, e.arrange_arrange⟩
    have whole : ((cs.map withoutEmpty).map arrange).filterMap (project? r'.hasFeature) =
        (cs.map withoutEmpty).map arrange := by
      conv => rhs; rw [← List.filterMap_some (l := (cs.map withoutEmpty).map arrange)]
      exact List.filterMap_congr fun d mem => (arranged d mem).1.project?_eq (features ▸ on)
    have settled : ((cs.map withoutEmpty).map arrange).map arrange = (cs.map withoutEmpty).map arrange := by
      conv => rhs; rw [← List.map_id ((cs.map withoutEmpty).map arrange)]
      exact List.map_congr_left fun d mem => (arranged d mem).2
    have header' : FromHeader r'.header := said ▸ Writer.fromHeader_said header
    obtain ⟨written', -⟩ := readAll_of_rewriter (format ▸ modern) (features ▸ on) header' whole
      fun d mem => (arranged d mem).1
    rw [written', settled, fileLines, fileLines, Writer.headerLines_rewriter header format said features few]

/-- A class with members out of order, an empty list of hidden names and spaces between its words. -/
def looseFile : List Char :=
  ("#Signature file v4.3\nversion  1\n# All rights\n\nCLSS  public a.B\n" ++
    "METH public void run()\nanno 0 a.N()\nFLD public int size\nhfds \n\n").toList

theorem readAll_rewritten_looseFile : ∃ cs r, (Reader.ofFormat .v43 (ofText looseFile)).readAll = (.ok cs, r) ∧
    cs.map (·.name) = ["a.B"] ∧ ¬ ["", ""] <:+ r.header.copyright ∧
    ∃ written ds r', (Writer.rewriter r).writeAll cs = .ok written ∧
      (Reader.ofFormat .v43 (ofText written)).readAll = (.ok ds, r') ∧
      List.Forall₂ SameUpToOrder ds (cs.map withoutEmpty) ∧
      (Writer.rewriter r').writeAll ds = .ok written := by
  have single : ∀ line ∈ ofText looseFile, ∀ n t, line = .text n t → SingleLine t := by
    have each : (ofText looseFile).all fun line => line.casesOn (fun _ t => decide (SingleLine t)) true := by
      decide +kernel
    rintro line mem n t rfl
    simpa using List.all_eq_true.1 each _ mem
  cases read : (Reader.ofFormat .v43 (ofText looseFile)).readAll with
  | mk result r =>
    have names : result.toOption.map (List.map (·.name)) = some ["a.B"] := by
      rw [show result = (Reader.ofFormat .v43 (ofText looseFile)).readAll.1 by rw [read]]
      decide +kernel
    have header : r.header = ⟨some "1", [], ["All rights"]⟩ := by
      rw [show r = (Reader.ofFormat .v43 (ofText looseFile)).readAll.2 by rw [read]]
      decide +kernel
    have noModule : ∀ cs, result = .ok cs → ∀ c ∈ cs, c.moduleInfo = none := by
      have each : (result.toOption.getD []).all (·.moduleInfo.isNone) := by
        rw [show result = (Reader.ofFormat .v43 (ofText looseFile)).readAll.1 by rw [read]]
        decide +kernel
      rintro cs rfl
      simpa [Except.toOption] using each
    cases result with
    | error e => simp [Except.toOption] at names
    | ok cs =>
      have few : ¬ ["", ""] <:+ r.header.copyright := by
        rw [header]
        decide
      obtain ⟨written, ds, r', wrote, again, same, whole⟩ := readAll_rewritten (by simp [Format.modern]) read
        (by rw [header]; decide) (fun n t mem => single _ mem n t rfl)
        (fun c mem m found => by simp [noModule cs rfl c mem] at found)
      exact ⟨cs, r, rfl, by simpa [Except.toOption] using names, few, written, ds, r', wrote, again, same,
        whole fun _ => few⟩

/-- A copyright text of two lines, both empty. -/
def blankCopyright : List Char :=
  "#Signature file v4.3\nversion 1\n# \n# \n\n".toList

/-- Each time that a copyright text of empty lines is written again, it loses one. -/
theorem writeAll_rewriter_blankCopyright : ∃ r written r' again,
    (Reader.ofFormat .v43 (ofText blankCopyright)).readAll = (.ok [], r) ∧
      .tigerInfo ∉ r.header.absent ∧ (∀ c ∈ blankCopyright, c ≠ '\r') ∧
      (Writer.rewriter r).writeAll [] = .ok written ∧
      (Reader.ofFormat .v43 (ofText written)).readAll = (.ok [], r') ∧
      (Writer.rewriter r').writeAll [] = .ok again ∧ again ≠ written := by
  refine ⟨_, _, _, _, rfl, ?_, ?_, rfl, rfl, rfl, ?_⟩
  · decide +kernel
  · decide +kernel
  · decide +kernel

end ApiSurface
