import ApiSurface.Proofs.SignatureFile.Header
import ApiSurface.Proofs.SignatureFile.Projection

/-!
Whole files in the spelling of today, written and read. Main statement: what is kept of classes and
modules is read back in their order, every class with its members and annotations in the order in which
they were written (`readAll_of_writeAll`).
-/

namespace ApiSurface

open ApiSurface.Text ApiSurface.SignatureFile

namespace Writer

/-- The text of a file in which these classes and modules are written one after the other. -/
def writeAll (w : Writer) : List ClassDescription → Except WriteError (List Char)
  | [] => .ok w.close
  | c :: more =>
    match w.writeClass c with
    | (text, .ok (), w) => (w.writeAll more).map (text ++ ·)
    | (_, .error e, _) => .error e

/-- The header and the blocks are all that is written. -/
theorem writeAll_eq_ok {w : Writer} {block : ClassDescription → List Char} {cs : List ClassDescription}
    (each : ∀ c ∈ cs, w.block c = .ok (block c)) :
    w.writeAll cs = .ok (w.writeHeader.1 ++ cs.flatMap block) := by
  induction cs generalizing w with
  | nil => simp [writeAll, close]
  | cons c cs ih =>
    have later := ih (w := w.writeHeader.2) fun d mem => by rw [block_writeHeader]; exact each d (by simp [mem])
    simp [writeAll, writeClass, block_writeHeader, each c (by simp), later, writeHeader_writeHeader]

end Writer

namespace ClassDescription

/-- The lines of the block of a class or a module as it is. -/
def lines (c : ClassDescription) : List (List Char) :=
  match c.moduleInfo with
  | some m => m.lines
  | none => c.headerText :: c.bodyLines

/-- A class or a module that its block gives back when these features are active. -/
inductive Readable (active : Feature → Bool) : ClassDescription → Prop
  | ofClass {c : ClassDescription} (printable : c.Printable) (carried : c.Carried active) : Readable active c
  | ofModule {m : ModuleDescription} (on : active .moduleInfo) (single : ∀ t ∈ m.texts, SingleLine t.toList) :
    Readable active (.ofModule m)

theorem arrange_ofModule (m : ModuleDescription) : (ofModule m).arrange = ofModule m := by
  simp [arrange, arrangeMembers, sortAnnotations, ofModule, named, members, withMembers]

theorem Readable.arrange {active : Feature → Bool} {c : ClassDescription} (h : c.Readable active) :
    c.arrange.Readable active := by
  cases h with
  | ofClass printable carried => exact .ofClass printable.arrange carried.arrange
  | ofModule on single =>
    rw [arrange_ofModule]
    exact .ofModule on single

/-- The lines of a readable block are lines. -/
theorem Readable.singleLine {active : Feature → Bool} {c : ClassDescription} (h : c.Readable active) :
    ∀ line ∈ c.lines, SingleLine line := by
  cases h with
  | ofClass printable carried =>
    rw [lines, printable.noModule]
    intro line mem
    rcases List.mem_cons.1 mem with rfl | mem
    · exact printable.singleLine.1
    · exact printable.singleLine.2 line mem
  | ofModule on single => exact fun line mem => ModuleDescription.singleLine_of_mem_lines single mem

end ClassDescription

namespace SignatureFile

/-- Every line of a block behind the first one is of some kind, and begins no block. -/
theorem kind_of_mem_bodyLines {c : ClassDescription} {line : List Char} (mem : line ∈ c.bodyLines) :
    ¬(LineKind.of line = .classHeader ∨ LineKind.of line = .moduleBlock) ∧ LineKind.of line ≠ .unknown := by
  have use (u : AnnotationUse) : LineKind.of (printUse u) = .annotated :=
    Line.kind_of_beginsUse (by simpa using Annotated.beginsUse_printUse u [])
  simp only [ClassDescription.bodyLines, List.mem_append, List.mem_flatMap, List.mem_map,
    ClassDescription.hiddenLine, Option.mem_toList, Option.map_eq_some_iff] at mem
  rcases mem with ((⟨u, -, rfl⟩ | ⟨kind, -, m, -, mem⟩) | ⟨names, -, rfl⟩) | ⟨names, -, rfl⟩
  · simp [use]
  · rcases List.mem_cons.1 mem with rfl | mem
    · simp [Line.kind_formatMember]
    · obtain ⟨u, -, rfl⟩ := List.mem_map.1 mem
      simp [use]
  · simp [Line.formatHidden, Line.kind_hiddenFieldsTag]
  · simp [Line.formatHidden, Line.kind_hiddenClassesTag]

/-- In the spelling of today every line of a block says what it says. -/
theorem decodesTo_bodyLines (c : ClassDescription) :
    List.Forall₂ (DecodesTo [] c.name) c.bodyLines (c.bodyLines.map some) := by
  rw [List.forall₂_map_right_iff, List.forall₂_same]
  intro line mem
  obtain ⟨inside, known⟩ := kind_of_mem_bodyLines mem
  exact ⟨inside, allBlank_eq_false known, rfl, fun text same => by simp_all⟩

/-- A readable class or module is read from its block in the spelling of today. -/
theorem ReadsBlock.ofReadable {f : Format} (rules : f.rules = []) {active : Feature → Bool}
    {c : ClassDescription} (h : c.Readable active) : ReadsBlock f active c.lines c := by
  cases h with
  | ofClass printable carried =>
    rw [ClassDescription.lines, printable.noModule]
    refine ReadsBlock.ofClass printable carried (c.bodyLines.map some) ?_ ?_
    · rw [rules]
      exact decodesTo_bodyLines c
    · rw [List.reduceOption, List.filterMap_map]
      exact List.filterMap_some
  | ofModule on single => exact ReadsBlock.ofModule _ on

end SignatureFile

namespace Writer

/-- Lines with their ends are the lines joined by line feeds, with one more at the end. -/
theorem flatMap_lined (line : List Char) (more : List (List Char)) :
    (line :: more).flatMap lined = join ['\n'] (line :: more) ++ ['\n'] := by
  induction more generalizing line with
  | nil => simp [lined]
  | cons next more ih =>
    rw [List.flatMap_cons, ih, join_cons_cons]
    simp [lined]

theorem block_eq_ok {w : Writer} (rules : w.format.rules = []) {c : ClassDescription}
    (erases : c.moduleInfo = none → c.ErasesThrows w.hasFeature) :
    w.block c = .ok ((c.project? w.hasFeature).toList.flatMap fun d =>
      (d.arrange.lines ++ [[]]).flatMap lined) := by
  unfold block ClassDescription.project?
  cases info : c.moduleInfo with
  | some m =>
    cases w.hasFeature .moduleInfo with
    | false => rfl
    | true =>
      obtain ⟨first, more, shape, -⟩ := readModule_lines m 0 []
      have markup : m.toMarkup.toList = join ['\n'] (first :: more) := by rw [← shape, m.join_lines]
      have lines : (ClassDescription.ofModule m).lines = first :: more := shape
      simp only [if_true, Option.toList_some, List.flatMap_singleton, ClassDescription.arrange_ofModule, lines,
        List.flatMap_append, flatMap_lined, markup]
      rfl
  | none =>
    have noModule : (c.project w.hasFeature).arrange.moduleInfo = none := info
    have back (ls : List (List Char)) : (ls.map String.ofList).map String.toList = ls := by
      simp [Function.comp_def]
    simp only [classLines_project rules (erases info), map_ok, back, Option.toList_some,
      List.flatMap_singleton, ClassDescription.lines, noModule]

/-- What is kept of classes and modules, every class as it is arranged. -/
def kept (w : Writer) (cs : List ClassDescription) : List ClassDescription :=
  (cs.filterMap (ClassDescription.project? w.hasFeature)).map ClassDescription.arrange

/-- The header and the lines of what is kept are all that is written. -/
theorem writeAll_eq_kept {w : Writer} (rules : w.format.rules = []) {cs : List ClassDescription}
    (erases : ∀ c ∈ cs, c.moduleInfo = none → c.ErasesThrows w.hasFeature) :
    w.writeAll cs = .ok (w.writeHeader.1 ++ ((w.kept cs).flatMap fun d => d.lines ++ [[]]).flatMap lined) := by
  rw [writeAll_eq_ok fun c mem => block_eq_ok rules (erases c mem)]
  simp only [kept, List.flatMap_map, List.flatMap_assoc, List.filterMap_eq_flatMap_toList]

theorem writeAll_eq_lined {w : Writer} (rules : w.format.rules = []) (fresh : w.headerWritten = false)
    {cs : List ClassDescription} (erases : ∀ c ∈ cs, c.moduleInfo = none → c.ErasesThrows w.hasFeature) :
    w.writeAll cs = .ok ((fileLines w ((w.kept cs).map ClassDescription.lines)).flatMap lined) := by
  have header : w.writeHeader.1 = w.header := by simp [writeHeader, fresh]
  rw [writeAll_eq_kept rules erases, header, header_eq]
  simp only [fileLines, List.flatMap_append, List.flatMap_map]

end Writer

/-- What is kept of classes and modules is read back in their order, every class as it was arranged. -/
theorem readAll_of_writeAll {w : Writer} (known : w.format ∈ Format.newestFirst) (rules : w.format.rules = [])
    (part : w.features ⊆ w.format.features) (fresh : w.headerWritten = false)
    (version : SingleLine w.apiVersion.toList) (texts : ∀ t ∈ w.copyrightTexts, SingleLine t)
    {cs : List ClassDescription} (erases : ∀ c ∈ cs, c.moduleInfo = none → c.ErasesThrows w.hasFeature)
    (readable : ∀ d ∈ cs.filterMap (ClassDescription.project? w.hasFeature), d.Readable w.hasFeature) :
    let kept := (cs.filterMap (ClassDescription.project? w.hasFeature)).map ClassDescription.arrange
    let text := (fileLines w (kept.map ClassDescription.lines)).flatMap Writer.lined
    w.writeAll cs = .ok text ∧
      ∃ r', (Reader.ofFormat w.format (ofText text)).readAll = (.ok kept, r') ∧
        r'.format = w.format ∧ r'.header = w.said := by
  intro kept text
  have each : ∀ d ∈ kept, d.Readable w.hasFeature := by
    intro d mem
    obtain ⟨e, inList, rfl⟩ := List.mem_map.1 mem
    exact (readable e inList).arrange
  obtain ⟨r', read, format, said⟩ := readAll_file known version texts
    (kept.map fun d => (d.lines, d))
    (fun b mem => by
      obtain ⟨d, inKept, rfl⟩ := List.mem_map.1 mem
      exact (each d inKept).singleLine)
    (fun b mem => by
      obtain ⟨d, inKept, rfl⟩ := List.mem_map.1 mem
      rw [Writer.active_eq_hasFeature part]
      exact ReadsBlock.ofReadable rules (each d inKept))
  refine ⟨Writer.writeAll_eq_lined rules fresh erases, r', ?_, format, said⟩
  simpa [Function.comp_def] using read

end ApiSurface
