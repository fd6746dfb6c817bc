import ApiSurface.Proofs.SignatureFile.ClassBlock
import ApiSurface.Proofs.SignatureFile.Derivations
import ApiSurface.Proofs.SignatureFile.ModuleBlock

/-!
The blocks of a file, read one after the other. A block ends where the next one begins, and the empty
line between two blocks belongs to either of them. Main statements: a printable class and a module are
read from their blocks (`ReadsBlock.ofClass`, `ReadsBlock.ofModule`), and from a sequence of blocks the
reader gets what each of them says, in order (`readUpTo_blocks`).
-/

namespace ApiSurface

open ApiSurface.Text ApiSurface.Line

namespace SignatureFile

/-! ### Gathering the lines of a class -/

/-- The end of the file, or the first line of a block. -/
def AtBlock : List SourceLine → Prop
  | [] => True
  | .text _ cs :: _ => LineKind.of cs = .classHeader ∨ LineKind.of cs = .moduleBlock
  | .undecodable :: _ => False

/-- A line inside a class block that the rules make this of, if anything. -/
structure DecodesTo (rules : List LegacyRule) (className : String) (old : List Char)
    (new : Option (List Char)) : Prop where
  inside : ¬(LineKind.of old = .classHeader ∨ LineKind.of old = .moduleBlock)
  filled : allBlank old = false
  decodes : LegacyRule.decodeAll className rules old = .ok new
  kind : ∀ text ∈ new, LineKind.of text = LineKind.of old

/-- A blank line is of no kind. -/
theorem kind_of_allBlank {cs : List Char} (h : allBlank cs) : LineKind.of cs = .unknown := by
  have blank {c : Char} (mem : c ∈ cs) : isBlank c := List.all_eq_true.1 h c mem
  have noLead {mark : List Char} (filled : ∃ c ∈ mark, isBlank c = false) : ¬mark <+: cs := by
    obtain ⟨c, mem, solid⟩ := filled
    intro lead
    rw [blank (lead.subset mem)] at solid
    cases solid
  have noWord (word : String) (filled : ∃ c ∈ word.toList, isBlank c = false) :
      String.ofList (firstWord cs) ≠ word := by
    rintro rfl
    rw [String.toList_ofList] at filled
    exact noLead filled (List.takeWhile_prefix _)
  have noModule : moduleLead.isPrefixOf cs = false := by
    rw [← Bool.not_eq_true, List.isPrefixOf_iff_prefix]
    exact noLead ⟨'<', by decide⟩
  have noUse : beginsUse cs = false := by
    simp only [beginsUse, Bool.or_eq_false_iff, Option.isSome_eq_false_iff, Option.isNone_iff_eq_none]
    exact ⟨isPrefixOf?_eq_none_iff.2 (noLead ⟨'a', by decide⟩),
      isPrefixOf?_eq_none_iff.2 (noLead ⟨'a', by decide⟩)⟩
  have noTag : MemberKind.ofTag? (String.ofList (firstWord cs)) = none := by
    rw [MemberKind.ofTag?, List.find?_eq_none]
    intro kind _ same
    refine noWord _ ?_ (by simpa using (beq_iff_eq.1 same).symm)
    cases kind
    · exact ⟨'S', by decide⟩
    · exact ⟨'I', by decide⟩
    · exact ⟨'F', by decide⟩
    · exact ⟨'M', by decide⟩
    · exact ⟨'C', by decide⟩
    · exact ⟨'I', by decide⟩
  simp [LineKind.of, noModule, noUse, noTag, noWord classTag ⟨'C', by decide⟩,
    noWord hiddenFieldsTag ⟨'h', by decide⟩, noWord hiddenClassesTag ⟨'h', by decide⟩]

/-- A line of some kind is not blank. -/
theorem allBlank_eq_false {cs : List Char} (known : LineKind.of cs ≠ .unknown) : allBlank cs = false := by
  rw [← Bool.not_eq_true]
  exact fun blank => known (kind_of_allBlank blank)

theorem gatherClass_atBlock {rest : List SourceLine} (next : AtBlock rest) (rules : List LegacyRule)
    (className : String) : gatherClass rules className rest = (.ok [], rest) := by
  match rest, next with
  | [], _ => rfl
  | .text n cs :: more, next => exact gathers_iff.1 (.next next)

/-- The lines of a class are gathered up to the next block. -/
theorem gatherClass_lines {rules : List LegacyRule} {className : String} {olds : List (List Char)}
    {news : List (Option (List Char))} (h : List.Forall₂ (DecodesTo rules className) olds news) (n k : Nat)
    {rest : List SourceLine} (next : AtBlock rest) :
    ∃ ls, Tells ls news.reduceOption ∧
      gatherClass rules className (numbered n olds ++ .text k [] :: rest) = (.ok ls, rest) := by
  simp only [← gathers_iff]
  induction h generalizing n with
  | nil => exact ⟨[], rfl, .blank (by decide) rfl (gathers_iff.2 (gatherClass_atBlock next rules className))⟩
  | @cons old new olds news first _ ih =>
    have filled : ¬allBlank old := by simp [first.filled]
    obtain ⟨ls, told, gathered⟩ := ih (n + 1)
    cases new with
    | none => exact ⟨ls, by simpa using told, .dropped first.inside filled first.decodes gathered⟩
    | some text =>
      refine ⟨⟨n, LineKind.of old, text⟩ :: ls, ?_, .kept first.inside filled first.decodes gathered⟩
      simp [Tells, first.kind text rfl] at told ⊢
      exact told

/-! ### Single blocks -/

/-- Lines that the reader makes one class or module of, when an empty line follows. -/
def ReadsBlock (f : Format) (active : Feature → Bool) (lines : List (List Char)) (c : ClassDescription) : Prop :=
  ∃ first more, lines = first :: more ∧
    (LineKind.of first = .classHeader ∨ LineKind.of first = .moduleBlock) ∧
    ∀ limit n k rest, AtBlock rest → ∃ behind, (behind = rest ∨ behind = .text k [] :: rest) ∧
      readBlock f active (limit + 1) (numbered n lines ++ .text k [] :: rest) = (.ok (some c), behind)

variable {f : Format} {active : Feature → Bool} {c : ClassDescription}

/-- The first line of a class block tells its kind. -/
theorem kind_headerText {c : ClassDescription} (h : SoundHeader c.name c.typeParameters) :
    LineKind.of c.headerText = .classHeader := by
  have whole := formatClassHeader_full c.modifiers h.token.filled
  have ends := atSpace_spaced_append (keywordTokens c.modifiers ++ [headerToken c.name c.typeParameters])
    atSpace_nil
  rw [List.append_nil] at ends
  rw [ClassDescription.headerText, whole]
  generalize spaced _ = rest at ends ⊢
  cases rest with
  | nil => decide
  | cons d rest =>
    obtain rfl : d = ' ' := ends d (by simp)
    exact kind_classTag rest

/-- A printable class is read from its block, whatever the spelling of its lines is. -/
theorem ReadsBlock.ofClass (h : c.Printable) (carried : c.Carried active) {olds : List (List Char)}
    (news : List (Option (List Char))) (decodes : List.Forall₂ (DecodesTo f.rules c.name) olds news)
    (told : news.reduceOption = c.bodyLines) : ReadsBlock f active (c.headerText :: olds) c := by
  have kind := kind_headerText h.header
  have filled : allBlank c.headerText = false := allBlank_eq_false (by simp [kind])
  have header : parseClassHeader c.headerText = .ok ⟨c.modifiers, c.name, c.typeParameters⟩ := by
    rw [ClassDescription.headerText, parseClassHeader_formatClassHeader h.header,
      show c.modifiers.visible = c.modifiers from h.written]
  refine ⟨c.headerText, olds, rfl, .inl kind, fun limit n k rest next => ⟨rest, .inl rfl, ?_⟩⟩
  obtain ⟨ls, spelled, gathered⟩ := gatherClass_lines decodes (n + 1) k next
  obtain ⟨latest, read⟩ := addAll_bodyLines h carried
  rw [told] at spelled
  simp only [numbered_cons, List.cons_append, readBlock, filled, Bool.false_eq_true, if_false, kind, readClass,
    header, gathered, read ls spelled]

/-- A module is read from the lines of its block, whatever follows them. -/
theorem readBlock_moduleLines (m : ModuleDescription) (on : active .moduleInfo) (limit n : Nat)
    (rest : List SourceLine) :
    readBlock f active (limit + 1) (numbered n m.lines ++ rest) = (.ok (some (.ofModule m)), rest) := by
  obtain ⟨first, more, shape, lead, read⟩ := readModule_lines m n rest
  simp only [shape, numbered_cons, List.cons_append, readBlock, allBlank_of_moduleLead lead, Bool.false_eq_true,
    if_false, kind_of_moduleLead lead, read, on, if_true]

/-- A module is read from its block. -/
theorem ReadsBlock.ofModule (m : ModuleDescription) (on : active .moduleInfo) :
    ReadsBlock f active m.lines (.ofModule m) := by
  obtain ⟨first, more, shape, lead, -⟩ := readModule_lines m 0 []
  exact ⟨first, more, shape, .inr (kind_of_moduleLead lead), fun limit n k rest _ =>
    ⟨.text k [] :: rest, .inr rfl, readBlock_moduleLines m on limit n _⟩⟩

/-! ### All blocks -/

theorem ReadsBlock.atBlock {lines : List (List Char)} (h : ReadsBlock f active lines c) (n : Nat)
    (rest : List SourceLine) : AtBlock (numbered n lines ++ rest) := by
  obtain ⟨first, more, rfl, kind, -⟩ := h
  exact kind

theorem readBlock_empty (limit k : Nat) (lines : List SourceLine) :
    readBlock f active (limit + 1) (.text k [] :: lines) = readBlock f active limit lines := by
  simp [readBlock, allBlank]

/-- The next block, with or without the empty line of the one before it. -/
theorem ReadsBlock.readNext {r : Reader} (reading : r.phase = .reading) {lines : List (List Char)}
    (h : ReadsBlock r.format r.hasFeature lines c) {n k l : Nat} {rest : List SourceLine} (next : AtBlock rest)
    (here : r.lines = numbered n lines ++ .text k [] :: rest ∨
      r.lines = .text l [] :: (numbered n lines ++ .text k [] :: rest)) :
    ∃ behind, (behind = rest ∨ behind = .text k [] :: rest) ∧
      r.readNext = (.ok (some c), { r with lines := behind }) := by
  obtain ⟨first, more, shape, -, read⟩ := h
  have opened : r.readHeader = (.ok (), r) := by simp [Reader.readHeader, reading]
  rcases here with here | here
  · obtain ⟨behind, which, found⟩ := read r.lines.length n k rest next
    refine ⟨behind, which, ?_⟩
    simp only [Reader.readNext, opened, reading, reduceCtorEq, if_false]
    conv in readBlock _ _ _ _ => rw [here]
    rw [← here] at found ⊢
    simp only [found]
  · obtain ⟨behind, which, found⟩ := read (numbered n lines ++ .text k [] :: rest).length n k rest next
    refine ⟨behind, which, ?_⟩
    simp only [Reader.readNext, opened, reading, reduceCtorEq, if_false, here, List.length_cons,
      readBlock_empty, found]

theorem readNext_atEnd {r : Reader} (reading : r.phase = .reading) {l : Nat}
    (here : r.lines = [] ∨ r.lines = [.text l []]) :
    r.readNext = (.ok none, { r with phase := .closed, lines := [] }) := by
  have opened : r.readHeader = (.ok (), r) := by simp [Reader.readHeader, reading]
  rcases here with here | here <;>
    simp [Reader.readNext, opened, reading, here, readBlock_empty, readBlock]

/-- From a sequence of blocks the reader gets what each of them says, in order. -/
theorem readUpTo_blocks (blocks : List (List (List Char) × ClassDescription)) {r : Reader}
    (reading : r.phase = .reading) (each : ∀ b ∈ blocks, ReadsBlock r.format r.hasFeature b.1 b.2)
    {n l limit : Nat} (enough : blocks.length < limit)
    (here : r.lines = numbered n (blocks.flatMap fun b => b.1 ++ [[]]) ∨
      r.lines = .text l [] :: numbered n (blocks.flatMap fun b => b.1 ++ [[]])) :
    ∃ r', r.readUpTo limit = (.ok (blocks.map Prod.snd), r') ∧ r'.format = r.format ∧
      r'.header = r.header := by
  induction blocks generalizing r n l limit with
  | nil =>
    obtain ⟨limit, rfl⟩ : ∃ m, limit = m + 1 := ⟨limit - 1, by simp at enough; omega⟩
    have ended := readNext_atEnd reading (l := l) (by simpa using here)
    exact ⟨{ r with phase := .closed, lines := [] }, by simp only [Reader.readUpTo, ended, List.map_nil],
      rfl, rfl⟩
  | cons b blocks ih =>
    obtain ⟨limit, rfl⟩ : ∃ m, limit = m + 1 := ⟨limit - 1, by simp at enough; omega⟩
    have next : AtBlock (numbered (n + b.1.length + 1) (blocks.flatMap fun b => b.1 ++ [[]])) := by
      cases blocks with
      | nil => trivial
      | cons a blocks =>
        have starts := (each a (by simp)).atBlock (n + b.1.length + 1)
          (numbered (n + b.1.length + 1 + a.1.length) ([[]] ++ blocks.flatMap fun b => b.1 ++ [[]]))
        rw [← numbered_append] at starts
        simpa using starts
    have shape : numbered n ((b :: blocks).flatMap fun b => b.1 ++ [[]]) = numbered n b.1 ++
        .text (n + b.1.length) [] :: numbered (n + b.1.length + 1) (blocks.flatMap fun b => b.1 ++ [[]]) := by
      simp [numbered_append]
    rw [shape] at here
    obtain ⟨behind, which, read⟩ := (each b (by simp)).readNext reading next here
    obtain ⟨r', later, format, header⟩ := ih (r := { r with lines := behind }) reading
      (fun a mem => each a (by simp [mem])) (by simpa using enough) which
    exact ⟨r', by simp only [Reader.readUpTo, read, later, List.map_cons], format, header⟩

end SignatureFile
end ApiSurface
