import ApiSurface.Proofs.SignatureFile.Independent
import ApiSurface.Proofs.SignatureFile.RoundTrip
import ApiSurface.Proofs.SignatureFile.Steps

/-!
Modules between classes. A module is read from the lines of its block and the reader stops right behind them,
whatever follows (`readNext_moduleLines`), and whatever was written before it is read without touching them
(`readNext_behind_readable`). Main statement: wherever a module is written among well-formed classes and other modules,
it is read unchanged, and the reader is then at what was written after it (`readNext_ofModule`).
-/

namespace ApiSurface

open ApiSurface.Text ApiSurface.SignatureFile

namespace Writer

/-! ### What is kept -/

/-- Where modules are written, something is kept of everything. -/
theorem length_kept {w : Writer} (on : w.hasFeature .moduleInfo) (cs : List ClassDescription) :
    (w.kept cs).length = cs.length := by
  rw [kept, List.length_map, List.length_filterMap_eq_countP, List.countP_eq_length]
  intro c _
  unfold ClassDescription.project?
  split <;> simp [on]

theorem readable_kept {w : Writer} {cs : List ClassDescription} (wellFormed : ∀ c ∈ cs, c.WellFormed) :
    ∀ d ∈ w.kept cs, d.Readable w.hasFeature := by
  intro d mem
  obtain ⟨e, kept, rfl⟩ := List.mem_map.1 mem
  obtain ⟨c, inList, kept⟩ := List.mem_filterMap.1 kept
  exact ((wellFormed c inList).readable e kept).arrange

/-- A module is kept as it is, between what is kept of the others. -/
theorem kept_append_cons {w : Writer} (on : w.hasFeature .moduleInfo) {c : ClassDescription} {m : ModuleDescription}
    (info : c.moduleInfo = some m) (before after : List ClassDescription) :
    w.kept (before ++ c :: after) = w.kept before ++ .ofModule m :: w.kept after := by
  simp [kept, ClassDescription.project?_of_module w.hasFeature info on, ClassDescription.arrange_ofModule]

end Writer

namespace SignatureFile

/-! ### Blocks behind others -/

/-- The reader takes the lines of a module and no others. -/
theorem readNext_moduleLines {f : Format} {h : FileHeader} (m : ModuleDescription)
    (on : (atLines f h []).hasFeature .moduleInfo) (n : Nat) (rest : List SourceLine) :
    (atLines f h (numbered n m.lines ++ rest)).readNext = (.ok (some (.ofModule m)), atLines f h rest) := by
  rw [readNext_atLines, nextBlock, readBlock_moduleLines m on]

section Written

variable {w : Writer} (rules : w.format.rules = []) (part : w.features ⊆ w.format.features) {h : FileHeader}
  (absent : h.absent = w.absent.reverse)

include rules part

/-- Blocks that can be read begin with a block. -/
theorem atBlock_readable {ds : List ClassDescription} (readable : ∀ d ∈ ds, d.Readable w.hasFeature) (n : Nat) :
    AtBlock (numbered n (ds.flatMap fun d => d.lines ++ [[]])) := by
  cases ds with
  | nil => trivial
  | cons d ds =>
    have first : ReadsBlock w.format w.active d.lines d := by
      rw [Writer.active_eq_hasFeature part]
      exact .ofReadable rules (readable d (by simp))
    rw [List.flatMap_cons, List.append_assoc, numbered_append]
    exact first.atBlock n _

include absent

/-- Behind a header, blocks that can be read are read to their end. -/
theorem readUpTo_readable {ds : List ClassDescription} (readable : ∀ d ∈ ds, d.Readable w.hasFeature) (n : Nat) :
    ∃ limit r, (ds.flatMap fun d => d.lines ++ [[]]).length < limit ∧
      (atLines w.format h (numbered n (ds.flatMap fun d => d.lines ++ [[]]))).readUpTo limit = (.ok ds, r) := by
  have agree (lines : List SourceLine) : (atLines w.format h lines).hasFeature = w.hasFeature :=
    (hasFeature_of_header rfl absent).trans (Writer.active_eq_hasFeature part)
  have enough : (ds.map fun d => (d.lines, d)).length <
      ds.length + (ds.flatMap fun d => d.lines ++ [[]]).length + 1 := by
    rw [List.length_map]
    omega
  obtain ⟨r, read, -⟩ := readUpTo_blocks (ds.map fun d => (d.lines, d)) (n := n) (l := 0)
    (r := atLines w.format h (numbered n (ds.flatMap fun d => d.lines ++ [[]]))) rfl (fun b mem => by
      obtain ⟨d, inList, rfl⟩ := List.mem_map.1 mem
      rw [agree]
      exact .ofReadable rules (readable d inList)) enough (.inl (by rw [List.flatMap_map]; rfl))
  refine ⟨_, r, by omega, read.trans ?_⟩
  simp [Function.comp_def]

/-- Where the header of a file was read, blocks that can be read are read in front of other blocks, and then the
next one of these is. -/
theorem readNext_behind_readable {front back : List ClassDescription}
    (readable : ∀ d ∈ front ++ back, d.Readable w.hasFeature) {r : Reader} {k : Nat}
    (opened : r.readHeader =
      (.ok (), atLines w.format h (numbered k ((front ++ back).flatMap fun d => d.lines ++ [[]])))) :
    ∃ r' n, r.readUpTo front.length = (.ok front, r') ∧
      r'.readNext = (atLines w.format h (numbered n (back.flatMap fun d => d.lines ++ [[]]))).readNext := by
  rw [List.flatMap_append, numbered_append] at opened
  generalize k + List.length _ = n at opened
  have next := atBlock_readable rules part (fun d mem => readable d (List.mem_append_right front mem)) n
  obtain ⟨limit, _, enough, alone⟩ :=
    readUpTo_readable rules part absent (fun d mem => readable d (List.mem_append_left back mem)) k
  obtain ⟨-, lines, read, there⟩ := readUpTo_behind enough alone k next
  cases front with
  | nil => exact ⟨_, n, rfl, readNext_of_readHeader opened rfl⟩
  | cons d front => exact ⟨_, n, (readUpTo_of_readHeader opened rfl front.length).trans read, there⟩

end Written

/-- The lines that were written of blocks that can be read are theirs. -/
theorem lineTexts_readable {active : Feature → Bool} {ds : List ClassDescription}
    (readable : ∀ d ∈ ds, d.Readable active) :
    lineTexts ((ds.flatMap fun d => d.lines ++ [[]]).flatMap Writer.lined) = ds.flatMap fun d => d.lines ++ [[]] := by
  refine lineTexts_lined fun line mem => ?_
  obtain ⟨d, inList, mem⟩ := List.mem_flatMap.1 mem
  rcases List.mem_append.1 mem with mem | mem
  · exact (readable d inList).singleLine line mem
  · obtain rfl := List.mem_singleton.1 mem
    exact .nil

end SignatureFile

/-- **Module blocks survive.** Every module is given back by its markup, whatever its texts are. Where no text
spans lines, it is read unchanged from a file with whatever well-formed classes and modules before and after it,
once those before it were read, and the reader then stands at the lines of those after it. -/
theorem readNext_ofModule {w : Writer} (format : w.format = .v43) (part : w.features ⊆ w.format.features)
    (on : w.hasFeature .moduleInfo) (fresh : w.headerWritten = false) (version : '\n' ∉ w.apiVersion.toList)
    {before after : List ClassDescription} {c : ClassDescription} {m : ModuleDescription}
    (info : c.moduleInfo = some m) (wellFormed : ∀ d ∈ before ++ c :: after, d.WellFormed) :
    (∀ any : ModuleDescription, ModuleDescription.ofMarkup any.toMarkup = .ok any) ∧
    ∃ text behind ds r h n, w.writeAll (before ++ c :: after) = .ok text ∧
      w.writeHeader.2.writeAll after = .ok behind ∧
      (Reader.ofFormat .v43 (ofText text)).readUpTo before.length = (.ok ds, r) ∧
      List.Forall₂ ClassDescription.SameUpToOrder ds
        (before.filterMap (ClassDescription.project? w.hasFeature)) ∧
      r.readNext = (.ok (some (.ofModule m)),
        ⟨.v43, .reading, .text n [] :: numbered (n + 1) (lineTexts behind), h⟩) ∧
      h.absent = w.absent.reverse := by
  have known : w.format ∈ Format.newestFirst := by simp [format, Format.newestFirst]
  have rules : w.format.rules = [] := by rw [format]; rfl
  have erases : ∀ d ∈ before ++ c :: after, d.moduleInfo = none → d.ErasesThrows w.hasFeature :=
    fun d mem => (wellFormed d mem).erasesThrows
  have readable := Writer.readable_kept (w := w) wellFormed
  have written := Writer.writeAll_eq_kept rules erases
  have header : w.writeHeader.1 = w.header := by simp [Writer.writeHeader, fresh]
  have later : w.writeHeader.2.writeAll after =
      .ok (((w.kept after).flatMap fun d => d.lines ++ [[]]).flatMap Writer.lined) := by
    have features := w.hasFeature_writeHeader
    rw [Writer.writeAll_eq_kept (by rw [Writer.format_writeHeader, rules]) fun d mem => by
      rw [features]
      exact erases d (by simp [mem]), Writer.writeHeader_writeHeader, List.nil_append, Writer.kept, features]
    rfl
  rw [header, Writer.kept_append_cons on info] at written
  rw [Writer.kept_append_cons on info] at readable
  obtain ⟨h, absent, opened⟩ := Writer.readHeader_header known version
  have begins := opened (((w.kept before ++ .ofModule m :: w.kept after).flatMap fun d =>
    d.lines ++ [[]]).flatMap Writer.lined)
  rw [lineTexts_readable readable] at begins
  obtain ⟨r, n, read, there⟩ := readNext_behind_readable rules part absent readable begins
  refine ⟨ModuleDescription.ofMarkup_toMarkup, _, _, w.kept before, r, h, n + m.lines.length, written, later,
    ?_, ?_, ?_, absent⟩
  · rw [← format, ← Writer.length_kept on before]
    exact read
  · rw [Writer.kept, List.forall₂_map_left_iff, List.forall₂_same]
    exact fun d _ => d.sameUpToOrder_arrange
  · have active : (atLines w.format h []).hasFeature .moduleInfo := by
      rw [hasFeature_of_header (w := w) rfl absent, Writer.active_eq_hasFeature part, on]
    have block : (ClassDescription.ofModule m).lines = m.lines := rfl
    rw [List.flatMap_cons, block, List.append_assoc, numbered_append] at there
    rw [there, readNext_moduleLines m active, lineTexts_readable fun d mem => readable d (by simp [mem]), ← format]
    rfl

/-- A module whose texts look like ends of tags and of the block. -/
def ModuleDescription.lookalike : ModuleDescription :=
  { named "a</module>" with
    version := some "1\"/>"
    exports := .ofList [("p", ∅), ("</exports>", .ofList ["b"])]
    provides := .ofList [("a.S", ∅)] }

/-- The module between two classes. -/
theorem readNext_ofModule_lookalike : ∃ text behind ds r h n,
    (Writer.ofFormat .v43).writeAll [.box, .ofModule .lookalike, .box] = .ok text ∧
      (Writer.ofFormat .v43).writeHeader.2.writeAll [.box] = .ok behind ∧
      (Reader.ofFormat .v43 (ofText text)).readUpTo 1 = (.ok ds, r) ∧
      List.Forall₂ ClassDescription.SameUpToOrder ds
        ([.box].filterMap (ClassDescription.project? (Writer.ofFormat .v43).hasFeature)) ∧
      r.readNext = (.ok (some (.ofModule .lookalike)), ⟨.v43, .reading,
        .text n [] :: numbered (n + 1) (lineTexts behind), h⟩) ∧
      h.absent = (Writer.ofFormat .v43).absent.reverse := by
  have wellFormed : ∀ d ∈ [ClassDescription.box] ++ .ofModule .lookalike :: [.box], d.WellFormed := by
    intro d mem
    simp only [List.cons_append, List.nil_append, List.mem_cons, List.not_mem_nil, or_false] at mem
    rcases mem with rfl | rfl | rfl
    · exact ClassDescription.wellFormed_box
    · show ∀ t ∈ ModuleDescription.lookalike.texts, SingleLine t.toList
      decide +kernel
    · exact ClassDescription.wellFormed_box
  exact (readNext_ofModule (w := .ofFormat .v43) rfl (fun x mem => mem) (by decide) rfl (by decide) rfl
    wellFormed).2

end ApiSurface
