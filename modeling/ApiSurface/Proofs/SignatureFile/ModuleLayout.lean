import ApiSurface.Proofs.Markup.Whole
import ApiSurface.Proofs.SignatureFile.Modules
import ApiSurface.Proofs.SignatureFile.Shifted

/-!
Module blocks in other layouts. Where a block ends is told from its lines: it is one line if that has the end
tag in it or ends like an empty tag, and else it goes on to the first line with the end tag. So the text of a
module may be broken into lines between any of its tags, as long as the first of several lines does not end
like an empty tag. Main statement: in every such layout the module is read, and then what follows it
(`readNext_layout`). A first line that holds the tag of the module and an empty one is taken for the whole
block (`readNext_layout_ne`).
-/

namespace ApiSurface

open ApiSurface.Text ApiSurface.Writer

/-! ### Tags in broken texts -/

namespace Markup

variable {front back text lead : List Char}

namespace IsWhole

/-- The beginning of a tag is not cut. -/
theorem lead_prefix (h : IsWhole front) (filled : front ≠ []) (part : front <+: text) (starts : '<' :: lead <+: text)
    (inside : '>' ∉ lead) : '<' :: lead <+: front := by
  rcases Nat.le_total ('<' :: lead).length front.length with enough | short
  · exact List.prefix_of_prefix_length_le starts part enough
  · obtain ⟨rest, whole⟩ := List.prefix_of_prefix_length_le part starts short
    cases front with
    | nil => exact absurd rfl filled
    | cons c front =>
      obtain ⟨rfl, rfl⟩ := List.cons.inj whole
      -- the front would end in the middle of the tag
      exact absurd (List.mem_append_left _ (h.closed (a := []) rfl)) inside

/-- The tag at the end of a text is not cut. -/
theorem tag_suffix (h : IsWhole front) (filled : back ≠ []) (inside : '>' ∉ lead)
    (ends : '<' :: (lead ++ ['>']) <:+ front ++ back) : '<' :: (lead ++ ['>']) <:+ back := by
  obtain ⟨body, whole⟩ := ends
  rcases List.append_eq_append_iff.1 whole with ⟨gap, rfl, cut⟩ | ⟨gap, rfl, rfl⟩
  · cases gap with
    | nil => exact ⟨[], cut⟩
    | cons c gap =>
      -- the front would end in the middle of the tag
      obtain ⟨rfl, inner⟩ : '<' = c ∧ lead ++ ['>'] = gap ++ back := List.cons.inj cut
      have same : (lead ++ ['>']).dropLast = (gap ++ back).dropLast := congrArg _ inner
      rw [List.dropLast_concat, List.dropLast_append_of_ne_nil filled] at same
      have part : gap <+: lead := ⟨_, same.symm⟩
      exact absurd (part.subset (h.closed rfl)) inside
  · exact ⟨gap, rfl⟩

/-- One piece is not cut. -/
theorem eq_piece (h : IsWhole front) (filled : front ≠ []) {inside rest : List Char} (piece : IsPiece inside)
    (whole : '<' :: (inside ++ ['>']) = front ++ rest) : rest = [] := by
  cases h with
  | nil => exact absurd rfl filled
  | text plain => exact absurd (List.cons.inj whole).1.symm plain
  | @piece inside' cs piece' more =>
    have same : inside ++ ['>'] = inside' ++ '>' :: (cs ++ rest) := by simpa using whole
    have found := piece []
    rw [same, piece'] at found
    exact (List.append_eq_nil_iff.1 (Option.some.inj found)).2

end IsWhole

namespace IsBroken

variable {before after : List (List Char)} {line : List Char}

theorem ne_nil (h : IsBroken text (line :: after)) (filled : line ≠ []) : text ≠ [] := by
  cases h with
  | line => simp [filled]

/-- A line that is not the last one is in the text without its last character. -/
theorem infix_dropLast (h : IsBroken text (before ++ line :: after)) (later : after ≠ []) (filled : [] ∉ after) :
    line <:+: text.dropLast := by
  obtain ⟨front, blanks, back, rfl, -, -, -, more⟩ := h.split
  have rest : back ≠ [] := by
    cases after with
    | nil => exact absurd rfl later
    | cons next after => exact more.ne_nil fun none => filled (by simp [none])
  rw [← List.append_assoc, List.dropLast_append_of_ne_nil (by simp [rest])]
  exact ⟨front, _, rfl⟩

/-- The last line has the tag at the end of the text. -/
theorem tag_suffix (h : IsBroken text (before ++ [line])) (filled : line ≠ []) (inside : '>' ∉ lead)
    (ends : '<' :: (lead ++ ['>']) <:+ text) : '<' :: (lead ++ ['>']) <:+ line := by
  obtain ⟨front, blanks, back, rfl, begins, -, between, more⟩ := h.split
  cases more
  rw [List.append_nil] at ends
  have last := begins.tag_suffix (by simp [filled]) inside ends
  rcases List.eq_nil_or_concat' blanks with rfl | ⟨blanks, c, rfl⟩
  · rwa [List.append_nil] at last
  · obtain ⟨body, whole⟩ := last
    rw [← List.cons_append, ← List.append_assoc, ← List.append_assoc] at whole
    obtain rfl : '>' = c := by simpa using (List.append_inj' whole rfl).2
    exact absurd (List.mem_append_right _ (List.mem_singleton_self _)) (notMem_of_allBlank between (by decide))

/-- One piece is one line. -/
theorem of_piece (h : IsBroken text (line :: after)) (filled : [] ∉ line :: after) {inside : List Char}
    (piece : IsPiece inside) (whole : text = '<' :: (inside ++ ['>'])) : line = text ∧ after = [] := by
  cases h with
  | line isWhole between more =>
    have rest := isWhole.eq_piece (fun none => filled (by simp [none])) piece whole.symm
    obtain ⟨rfl, rfl⟩ := List.append_eq_nil_iff.1 rest
    cases after with
    | nil => exact ⟨by simp, rfl⟩
    | cons next after => exact absurd rfl (more.ne_nil fun none => filled (by simp [none]))

end IsBroken
end Markup

namespace SignatureFile

/-! ### Layouts -/

/-- The text of a module: one element, with the end tag at its end and nowhere else, or one empty tag. -/
structure IsModuleText (text : List Char) : Prop where
  starts : moduleLead <+: text
  ends : (moduleEnd <:+ text ∧ ¬moduleEnd <:+: text.dropLast) ∨
    ∃ inside, text = '<' :: (inside ++ ['/'] ++ ['>']) ∧ Markup.IsPiece (inside ++ ['/'])

/-- Lines of a file into which the text of a module is broken between its tags. -/
structure IsLayout (text block : List Char) : Prop where
  broken : Markup.IsBroken text (lineTexts block)
  filled : [] ∉ lineTexts block
  ends : block.getLast? = some '\n'

theorem IsLayout.of_flatten {text block : List Char} (flat : (lineTexts block).flatten = text)
    (each : ∀ line ∈ lineTexts block, Markup.IsWhole line) (filled : [] ∉ lineTexts block)
    (ends : block.getLast? = some '\n') : IsLayout text block :=
  ⟨flat ▸ .of_flatten each, filled, ends⟩

/-- The first of several lines does not end like an empty tag. -/
def GoesOn : List (List Char) → Prop
  | first :: _ :: _ => ¬"/>".toList <:+ trimEnd first
  | _ => True

instance : DecidablePred GoesOn
  | [] | [_] => .isTrue trivial
  | first :: _ :: _ => inferInstanceAs (Decidable ¬"/>".toList <:+ trimEnd first)

theorem isWholeModule_iff {cs : List Char} :
    isWholeModule cs ↔ moduleEnd <:+: cs ∨ "/>".toList <:+ trimEnd cs := by
  rw [isWholeModule, Bool.or_eq_true, occurs_iff, Option.isSome_iff_exists]
  simp only [beforeTail?_eq_some_iff]
  exact or_congr_right (exists_congr fun _ => eq_comm)

theorem moduleEnd_eq : moduleEnd = '<' :: ("/module".toList ++ ['>']) := by decide

section Broken

variable {text first : List Char} {more : List (List Char)} (isText : IsModuleText text)
  (broken : Markup.IsBroken text (first :: more)) (filled : [] ∉ first :: more)

include isText broken filled

theorem moduleLead_first : moduleLead <+: first := by
  have lead : moduleLead = '<' :: "module".toList := by decide
  have starts := isText.starts
  rw [lead] at starts ⊢
  cases broken with
  | line whole between later =>
    exact whole.lead_prefix (fun none => filled (by simp [none])) (List.prefix_append ..) starts (by decide)

/-- A line with all of a module is taken for the whole block. -/
theorem isWholeModule_alone (alone : more = []) : isWholeModule first := by
  subst alone
  rw [isWholeModule_iff]
  rcases isText.ends with ⟨ends, -⟩ | ⟨inside, shape, piece⟩
  · have single : Markup.IsBroken text ([] ++ [first]) := broken
    rw [moduleEnd_eq] at ends ⊢
    exact .inl (single.tag_suffix (fun none => filled (by simp [none])) (by decide) ends).isInfix
  · obtain ⟨rfl, -⟩ := broken.of_piece filled piece shape
    rw [shape, ← List.cons_append, trimEnd_concat (by decide)]
    exact .inr ⟨'<' :: inside, by simp⟩

/-- Where there are several lines, the end tag is in the last one and nowhere before. -/
theorem moduleEnd_last {inner : List (List Char)} {last : List Char} (several : more = inner ++ [last]) :
    (∀ line ∈ first :: inner, ¬moduleEnd <:+: line) ∧ moduleEnd <:+ last := by
  subst several
  rcases isText.ends with ⟨ends, once⟩ | ⟨inside, shape, piece⟩
  · refine ⟨fun line mem early => ?_, ?_⟩
    · obtain ⟨before, after, split⟩ := List.append_of_mem mem
      have whole : first :: (inner ++ [last]) = before ++ line :: (after ++ [last]) := by
        rw [← List.cons_append, split]
        simp
      rw [whole] at broken filled
      exact once (early.trans (broken.infix_dropLast (by simp) fun mem =>
        filled (List.mem_append_right _ (List.mem_cons_of_mem _ mem))))
    · rw [← List.cons_append] at broken
      rw [moduleEnd_eq] at ends ⊢
      exact broken.tag_suffix (fun none => filled (by simp [none])) (by decide) ends
  · simpa using (broken.of_piece filled piece shape).2

/-- The lines of a module are gathered into a text of the same module. -/
theorem readModule_broken {m : ModuleDescription}
    (accepted : ModuleDescription.ofMarkup (String.ofList text) = .ok m) (goesOn : GoesOn (first :: more)) (n : Nat)
    (rest : List SourceLine) : readModule n first (numbered (n + 1) more ++ rest) = (.ok m, rest) := by
  have described : ModuleDescription.ofMarkup (String.ofList (join ['\n'] (first :: more))) = .ok m := by
    rw [← accepted, ModuleDescription.ofMarkup, ModuleDescription.ofMarkup, String.toList_ofList,
      String.toList_ofList, broken.events_join]
  rcases List.eq_nil_or_concat' more with rfl | ⟨inner, last, rfl⟩
  · rw [join_singleton] at described
    simp only [readModule, isWholeModule_alone isText broken filled rfl, if_true, described, numbered_nil,
      List.nil_append]
  · obtain ⟨early, ends⟩ := moduleEnd_last isText broken filled rfl
    have notEmpty : ¬"/>".toList <:+ trimEnd first := by
      cases inner <;> exact goesOn
    have part : isWholeModule first = false := by
      rw [← Bool.not_eq_true, isWholeModule_iff]
      exact not_or.2 ⟨early first (by simp), notEmpty⟩
    have no : ∀ line ∈ inner, occurs moduleEnd line = false := fun line mem => by
      rw [← Bool.not_eq_true, occurs_iff]
      exact early line (by simp [mem])
    rw [join_eq_append_flatMap] at described
    simp only [readModule, part, Bool.false_eq_true, if_false, gatherModule_append no (occurs_iff.2 ends.isInfix),
      described]

end Broken

/-- The same lines further down give the same, but for the places of faults. -/
theorem answers_atLines (k : Nat) (f : Format) (h : FileHeader) (n : Nat) (ls : List (List Char))
    (ops : List ReaderOp) : (atLines f h (numbered (n + k) ls)).answers ops =
      ((atLines f h (numbered n ls)).answers ops).map (ReaderAnswer.shift k) :=
  Reader.FurtherDown.answers (by rw [← map_shift_numbered]; exact ⟨rfl, rfl, by simp [atLines], rfl, rfl⟩) ops

/-- Behind the header, a module is read from its lines, and no other lines are taken. -/
theorem readNext_broken {f : Format} {h : FileHeader} {text : List Char} {lines : List (List Char)}
    {m : ModuleDescription} (isText : IsModuleText text)
    (accepted : ModuleDescription.ofMarkup (String.ofList text) = .ok m) (broken : Markup.IsBroken text lines)
    (filled : [] ∉ lines) (goesOn : GoesOn lines) (on : (atLines f h []).hasFeature .moduleInfo) (n : Nat)
    (rest : List SourceLine) :
    (atLines f h (numbered n lines ++ rest)).readNext = (.ok (some (.ofModule m)), atLines f h rest) := by
  cases lines with
  | nil =>
    cases broken
    have none := List.prefix_nil.1 isText.starts
    exact absurd none (by decide)
  | cons first more =>
    have kind := kind_of_moduleLead (moduleLead_first isText broken filled)
    rw [readNext_atLines, numbered_cons, List.cons_append, nextBlock_module kind,
      readModule_broken isText broken filled accepted goesOn]
    simp only [on, if_true]

end SignatureFile

open SignatureFile

/-- **Layout of module blocks.** Whatever text of one module is broken into lines between its tags, unless the first
of several lines ends like an empty tag: behind a header that says that there are modules, the module that the text
describes is read from these lines. The reader is then at the lines behind them, and whatever is done with it gives
what it gives behind every other such layout, but for the places of faults. -/
theorem readNext_layout {f : Format} {head text block further : List Char} {m : ModuleDescription}
    (isHeader : IsHeader head) (alone : (Reader.ofFormat f (ofText head)).readAll.1 = .ok [])
    (on : (Reader.ofFormat f (ofText head)).readHeader.2.hasFeature .moduleInfo) (isText : IsModuleText text)
    (accepted : ModuleDescription.ofMarkup (String.ofList text) = .ok m) (layout : IsLayout text block)
    (goesOn : GoesOn (lineTexts block)) :
    (Reader.ofFormat f (ofText (head ++ block ++ further))).readNext = (.ok (some (.ofModule m)),
      { (Reader.ofFormat f (ofText head)).readHeader.2 with
        lines := numbered (1 + (lineTexts head).length + (lineTexts block).length) (lineTexts further) }) ∧
    ∀ other, IsLayout text other → GoesOn (lineTexts other) → ∀ ops,
      ((Reader.ofFormat f (ofText (head ++ block ++ further))).readNext.2.answers ops).map
          (ReaderAnswer.shift (lineTexts other).length) =
        ((Reader.ofFormat f (ofText (head ++ other ++ further))).readNext.2.answers ops).map
          (ReaderAnswer.shift (lineTexts block).length) := by
  rcases readHeader_isHeader (f := f) isHeader with ⟨h, opened⟩ | never
  · have bare := opened []
    rw [List.append_nil] at bare
    rw [bare] at on ⊢
    have read {block : List Char} (layout : IsLayout text block) (goesOn : GoesOn (lineTexts block)) :
        (Reader.ofFormat f (ofText (head ++ block ++ further))).readNext = (.ok (some (.ofModule m)),
          atLines f h (numbered (1 + (lineTexts head).length + (lineTexts block).length) (lineTexts further))) := by
      have behind := opened (block ++ further)
      rw [lineTexts_append layout.ends, numbered_append] at behind
      rw [List.append_assoc, readNext_of_readHeader behind rfl]
      exact readNext_broken isText accepted layout.broken layout.filled goesOn on _ _
    refine ⟨read layout goesOn, fun other layout' goesOn' ops => ?_⟩
    rw [read layout goesOn, read layout' goesOn', ← answers_atLines, ← answers_atLines, Nat.add_right_comm]
  · exact absurd alone (by simpa using never [] [])

/-- A header that says nothing but that it is one. -/
def bareHeader : List Char := "#Signature file v4.3\nversion \n\n".toList

/-- A module with a service. -/
def moduleWithUse : List Char := "<module name=\"m\"><uses service=\"S\"/></module>".toList

/-- The module with a line for every tag. -/
def threeLines : List Char := "<module name=\"m\">\n<uses service=\"S\"/>\n</module>\n".toList

/-- The module in two lines, the second of which has two tags. -/
def twoLines : List Char := "<module name=\"m\">\n<uses service=\"S\"/></module>\n".toList

/-- The module in two lines, the first of which has two tags. -/
def twoTagsFirst : List Char := "<module name=\"m\"><uses service=\"S\"/>\n</module>\n".toList

/-- A class without members. -/
def bareClass : List Char := "CLSS public a.B\n\n".toList

theorem isHeader_bareHeader : IsHeader bareHeader :=
  ⟨by decide, _, ["version ".toList], [], rfl, fun line mem => .inl ⟨[], (List.mem_singleton.1 mem).symm⟩, rfl⟩

theorem isModuleText_moduleWithUse : IsModuleText moduleWithUse := ⟨by decide, .inl (by decide)⟩

theorem isLayout_threeLines : IsLayout moduleWithUse threeLines :=
  .of_flatten (by decide) (by decide +kernel) (by decide) rfl

theorem readNext_layout_twoLines : ∃ m,
    ModuleDescription.ofMarkup (String.ofList moduleWithUse) = .ok m ∧ m.uses.toList = ["S"] ∧
      (Reader.ofFormat .v43 (ofText (bareHeader ++ twoLines ++ bareClass))).readNext = (.ok (some (.ofModule m)),
        { (Reader.ofFormat .v43 (ofText bareHeader)).readHeader.2 with lines := numbered 6 (lineTexts bareClass) }) ∧
      ∀ ops, ((Reader.ofFormat .v43 (ofText (bareHeader ++ twoLines ++ bareClass))).readNext.2.answers ops).map
          (ReaderAnswer.shift 3) =
        ((Reader.ofFormat .v43 (ofText (bareHeader ++ threeLines ++ bareClass))).readNext.2.answers ops).map
          (ReaderAnswer.shift 2) := by
  have used : ((ModuleDescription.ofMarkup (String.ofList moduleWithUse)).toOption.map fun m => m.uses.toList) =
      some ["S"] := by decide +kernel
  obtain ⟨m, found, uses⟩ := Option.map_eq_some_iff.1 used
  have accepted := toOption_eq_some_iff.1 found
  have two : IsLayout moduleWithUse twoLines := .of_flatten (by decide) (by decide +kernel) (by decide) rfl
  obtain ⟨read, same⟩ := readNext_layout (f := .v43) isHeader_bareHeader rfl (by decide) isModuleText_moduleWithUse
    accepted two (by decide +kernel)
  exact ⟨m, accepted, uses, read, same threeLines isLayout_threeLines (by decide +kernel)⟩

/-- Where the first line ends like an empty tag, the end tag of the module is taken for a line that should begin a
class. Behind another layout the class that follows is read. -/
theorem readNext_layout_ne : IsHeader bareHeader ∧ IsModuleText moduleWithUse ∧
    (ModuleDescription.ofMarkup (String.ofList moduleWithUse)).isOk ∧ IsLayout moduleWithUse twoTagsFirst ∧
    IsLayout moduleWithUse threeLines ∧
    ((Reader.ofFormat .v43 (ofText (bareHeader ++ twoTagsFirst ++ bareClass))).readNext.2.readNext.1.map
      (Option.map (·.name))) = .error (.malformed ⟨5, .noClassHeader, "</module>"⟩) ∧
    ((Reader.ofFormat .v43 (ofText (bareHeader ++ threeLines ++ bareClass))).readNext.2.readNext.1.map
      (Option.map (·.name))) = .ok (some "a.B") := by
  have cut : IsLayout moduleWithUse twoTagsFirst := .of_flatten (by decide) (by decide +kernel) (by decide) rfl
  exact ⟨isHeader_bareHeader, isModuleText_moduleWithUse, by decide +kernel, cut, isLayout_threeLines,
    by decide +kernel, by decide +kernel⟩

end ApiSurface
