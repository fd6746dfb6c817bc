import ApiSurface.Proofs.Legacy.Line
import ApiSurface.Proofs.SignatureFile.WellFormed

/-!
Class blocks in old spellings. Members come in the order of their old lines, and the reader files them in
that order. Main statement: if the old spelling of every member that is kept is read as the line of the
member, a class is written, and from the file is read what is kept of it, in another order
(`readAll_spelled`).
-/

namespace ApiSurface

open ApiSurface.Text ApiSurface.Line ApiSurface.SignatureFile ClassDescription

/-! ### Lines and what they say -/

/-- A line of an old block, with the line of today that it says, if any. -/
abbrev OldLine := List Char × Option (List Char)

/-- Lines that are read as what they say, in a class of this name. -/
def SaysSo (rules : List LegacyRule) (className : String) (lines : List OldLine) : Prop :=
  ∀ l ∈ lines, DecodesTo rules className l.1 l.2 ∧ SingleLine l.1

/-- A line that is its own old spelling. -/
def asIs (line : List Char) : OldLine := (line, some line)

/-- A line with its old spelling. -/
def inOld (rules : List LegacyRule) (className : String) (line : List Char) : OldLine :=
  (LegacyRule.spelled rules className line, some line)

variable {rules : List LegacyRule} {className : String}

theorem LegacyRule.Transparent.decodesTo {line : List Char} (h : LegacyRule.Transparent rules className line)
    (inside : ¬(LineKind.of line = .classHeader ∨ LineKind.of line = .moduleBlock))
    (known : LineKind.of line ≠ .unknown) :
    DecodesTo rules className (LegacyRule.spelled rules className line) (some line) := by
  refine ⟨by rwa [h.kind], allBlank_eq_false (by rwa [h.kind]), h.decodes, fun text same => ?_⟩
  obtain rfl := Option.some.inj same
  exact h.kind.symm

theorem SaysSo.append {a b : List OldLine} (first : SaysSo rules className a) (later : SaysSo rules className b) :
    SaysSo rules className (a ++ b) :=
  fun l mem => (List.mem_append.1 mem).elim (first l) (later l)

/-- Lines of a kind that no rule touches. -/
theorem SaysSo.asIs {lines : List (List Char)} (other : ∀ line ∈ lines, LegacyRule.Untouched (LineKind.of line) ∧
      ¬(LineKind.of line = .classHeader ∨ LineKind.of line = .moduleBlock) ∧ LineKind.of line ≠ .unknown ∧
      line ≠ Legacy.nullSuperLine.toList)
    (single : ∀ line ∈ lines, SingleLine line) : SaysSo rules className (lines.map ApiSurface.asIs) := by
  intro l mem
  obtain ⟨line, inList, rfl⟩ := List.mem_map.1 mem
  obtain ⟨untouched, inside, known, noNull⟩ := other line inList
  have whole : LegacyRule.decodeAll className rules line = .ok (some line) :=
    LegacyRule.decodeAll_eq_self fun rule _ => LegacyRule.decode_eq_self untouched noNull rule
  exact ⟨⟨inside, allBlank_eq_false known, whole, fun text same => by obtain rfl := Option.some.inj same; rfl⟩,
    single line inList⟩

/-- Annotations are written as they are. -/
theorem SaysSo.uses {uses : List AnnotationUse} (printable : ∀ use ∈ uses, use.Printable) :
    SaysSo rules className ((uses.map printUse).map ApiSurface.asIs) := by
  have kind (use : AnnotationUse) : LineKind.of (printUse use) = .annotated :=
    kind_of_beginsUse (by simpa using Annotated.beginsUse_printUse use [])
  refine .asIs (fun line mem => ?_) fun line mem => ?_
  · obtain ⟨use, -, rfl⟩ := List.mem_map.1 mem
    refine ⟨by simp [LegacyRule.Untouched, kind], by simp [kind], by simp [kind], fun same => ?_⟩
    have other := kind use
    rw [same] at other
    revert other
    decide
  · obtain ⟨use, inUses, rfl⟩ := List.mem_map.1 mem
    exact (printable use inUses).2

/-- Hidden names are written as they are. -/
theorem SaysSo.hidden {tag : String} {names : Option (Ordered.Set String)} {kind : LineKind}
    (tagged : ∀ rest, LineKind.of (tag.toList ++ ' ' :: rest) = kind)
    (isHidden : kind = .hiddenFields ∨ kind = .hiddenClasses) (single : SingleLine tag.toList)
    (printable : ∀ set ∈ names, PrintableHidden set) :
    SaysSo rules className ((hiddenLine tag names).map ApiSurface.asIs) := by
  refine .asIs (fun line mem => ?_) fun line mem => ?_
  · simp only [hiddenLine, Option.mem_toList, Option.map_eq_some_iff] at mem
    obtain ⟨set, -, rfl⟩ := mem
    have known : LineKind.of (formatHidden tag set) = kind := by simp [formatHidden, tagged]
    refine ⟨?_, ?_, ?_, fun same => ?_⟩
    · rcases isHidden with rfl | rfl <;> simp [LegacyRule.Untouched, known]
    · rcases isHidden with rfl | rfl <;> simp [known]
    · rcases isHidden with rfl | rfl <;> simp [known]
    · rw [same] at known
      rcases isHidden with rfl | rfl <;> revert known <;> decide
  · simp only [hiddenLine, Option.mem_toList, Option.map_eq_some_iff] at mem
    obtain ⟨set, found, rfl⟩ := mem
    exact singleLine_formatHidden single (printable set found).singleLine

/-! ### Members -/

/-- The lines of members with their annotations. -/
def memberOldLines (rules : List LegacyRule) (className : String) (ms : List Member) : List OldLine :=
  ms.flatMap fun m => inOld rules className (formatMember .full .empty className m) ::
    (m.annotations.map printUse).map asIs

/-- The line that says that there is no superclass, where the format wants one. -/
def nullLines (w : Writer) (c : ClassDescription) (kind : MemberKind) : List OldLine :=
  if kind = .superclass ∧ c.superclass.isNone ∧ w.format.hasRule .nullSuper then
    [(Legacy.nullSuperLine.toList, none)]
  else []

/-- A class with a line of every member that its old spelling gives back. -/
def ClassDescription.Spelled (rules : List LegacyRule) (c : ClassDescription) : Prop :=
  ∀ kind, ∀ m ∈ c.members kind, LegacyRule.Transparent rules c.name (formatMember .full .empty c.name m)

theorem saysSo_members {ms : List Member}
    (spelled : ∀ m ∈ ms, LegacyRule.Transparent rules className (formatMember .full .empty className m))
    (printable : ∀ m ∈ ms, ∀ use ∈ m.annotations, use.Printable) :
    SaysSo rules className (memberOldLines rules className ms) := by
  intro l mem
  obtain ⟨m, inList, mem⟩ := List.mem_flatMap.1 mem
  have kind := kind_formatMember .empty className m
  rcases List.mem_cons.1 mem with rfl | mem
  · exact ⟨(spelled m inList).decodesTo (by simp [kind]) (by simp [kind]), (spelled m inList).singleLine⟩
  · exact SaysSo.uses (printable m inList) l mem

theorem saysSo_nullLines (w : Writer) (c : ClassDescription) (kind : MemberKind) :
    SaysSo w.format.rules className (nullLines w c kind) := by
  intro l mem
  unfold nullLines at mem
  split at mem
  · rename_i missing
    obtain rfl := List.mem_singleton.1 mem
    have listed : LegacyRule.nullSuper ∈ w.format.rules := by simpa [Format.hasRule] using missing.2.2
    exact ⟨⟨by decide, by decide, LegacyRule.decodeAll_nullSuperLine listed, by simp⟩, by decide⟩
  · cases mem

variable {w : Writer} {c : ClassDescription}

/-- The members of a kind are written in some order, each in its old spelling. -/
theorem Writer.kindLines_spelled (erases : c.ErasesThrows w.hasFeature)
    (spelled : (c.project w.hasFeature).Spelled w.format.rules) (kind : MemberKind) :
    ∃ ms, ms.Perm (((c.project w.hasFeature).members kind).map Member.arrange) ∧
      w.kindLines c c.scope kind = .ok ((nullLines w c kind ++ memberOldLines w.format.rules c.name ms).map
        (String.ofList ·.1)) := by
  by_cases missing : kind = .superclass ∧ c.superclass.isNone ∧ w.format.hasRule .nullSuper
  · obtain ⟨rfl, none, -⟩ := id missing
    have empty : (c.project w.hasFeature).members .superclass = [] := by
      rw [members_project, declared, members, Option.isNone_iff_eq_none.1 none]
      rfl
    refine ⟨[], by simp [empty], ?_⟩
    rw [kindLines, if_pos missing, nullLines, if_pos missing]
    simp [memberOldLines]
  · let line (m : Member) := LegacyRule.spelled w.format.rules c.name (formatMember .full .empty c.name m)
    let block (m : Member) := (String.ofList (line m), annotationLines m.annotations)
    have each : ∀ m ∈ c.declared kind, w.memberBlock c c.scope m =
        .ok (block (m.project w.hasFeature c.scope)) := by
      intro m mem
      have kept : m.project w.hasFeature c.scope ∈ (c.project w.hasFeature).members kind := by
        rw [members_project]
        exact List.mem_map_of_mem mem
      rw [memberBlock, style, formatMember_project (fun left => erases left kind m mem), show c.name =
        (c.project w.hasFeature).name from rfl, (spelled kind _ kept).encodes]
      rfl
    have blocks : (c.declared kind).mapM (w.memberBlock c c.scope) =
        .ok (((c.project w.hasFeature).members kind).map block) := by
      rw [mapM_ok each, members_project, List.map_map]
      rfl
    -- the blocks are sorted by their old lines, and so are the members that they stand for
    obtain ⟨ms, sorted, perm⟩ := exists_of_perm_map
      (List.mergeSort_perm (((c.project w.hasFeature).members kind).map block) blockLe)
    refine ⟨ms.map Member.arrange, perm.map _, ?_⟩
    rw [kindLines, if_neg missing, blocks, map_ok, sorted, nullLines, if_neg missing, List.nil_append,
      memberOldLines, List.flatMap_map, List.flatMap_map, List.map_flatMap]
    refine congrArg _ (List.flatMap_congr fun m _ => ?_)
    have uses : annotationLines m.annotations = m.arrange.annotations.map fun use => String.ofList (printUse use) :=
      (map_line_sortAnnotations m.annotations).symm
    simp only [block, uses, inOld, asIs, List.map_cons, List.map_map, Function.comp_def]
    rfl

/-- What lines say that are their own old spelling. -/
theorem filterMap_asIs (lines : List (List Char)) : (lines.map asIs).filterMap Prod.snd = lines := by
  rw [List.filterMap_map]
  exact List.filterMap_some

theorem filterMap_nullLines (w : Writer) (c : ClassDescription) (kind : MemberKind) :
    (nullLines w c kind).filterMap Prod.snd = [] := by
  unfold nullLines
  split <;> rfl

/-- The old lines of members say what the lines of today say. -/
theorem filterMap_memberOldLines (ms : List Member) :
    (memberOldLines rules className ms).filterMap Prod.snd = ms.flatMap (memberLines className) := by
  rw [memberOldLines, List.filterMap_flatMap]
  refine List.flatMap_congr fun m _ => ?_
  have first (line : List Char) (more : List OldLine) :
      (inOld rules className line :: more).filterMap Prod.snd = line :: more.filterMap Prod.snd := rfl
  rw [first, filterMap_asIs]
  rfl

/-- A class is written as lines that say what is kept of it, in some order. -/
theorem Writer.classLines_spelled (erases : c.ErasesThrows w.hasFeature)
    (printable : (c.project w.hasFeature).Printable) (spelled : (c.project w.hasFeature).Spelled w.format.rules) :
    ∃ (d : ClassDescription) (lines : List OldLine), d.SameUpToOrder (c.project w.hasFeature) ∧
      w.classLines c = .ok ((d.headerText :: lines.map Prod.fst).map String.ofList) ∧
      SaysSo w.format.rules c.name lines ∧ lines.filterMap Prod.snd = d.bodyLines := by
  choose ms perm written using Writer.kindLines_spelled erases spelled
  let kept := c.project w.hasFeature
  let d : ClassDescription := { kept.withMembers ms with annotations := sortAnnotations kept.annotations }
  have single : (ms .superclass).length ≤ 1 := by
    rw [(perm .superclass).length_eq, List.length_map]
    exact kept.length_members_superclass
  have members : d.members = ms := kept.members_withMembers single
  have same : d.SameUpToOrder kept := by
    refine ⟨rfl, rfl, rfl, fun kind => ?_, sortAnnotations_perm _, rfl, rfl, rfl⟩
    rw [members]
    refine ((perm kind).map Member.face).trans ?_
    simp only [List.map_map, Function.comp_def, Member.face_arrange]
    exact .refl _
  have shown := printable.congr same
  let lines : List OldLine := (d.annotations.map printUse).map asIs ++
    MemberKind.writeOrder.flatMap (fun kind => nullLines w c kind ++ memberOldLines w.format.rules c.name (ms kind)) ++
    (hiddenLine hiddenFieldsTag d.hiddenFields).map asIs ++ (hiddenLine hiddenClassesTag d.hiddenClasses).map asIs
  have header : LegacyRule.encodeAll c.name w.format.rules d.headerText = .ok d.headerText := by
    refine LegacyRule.encodeAll_eq_self fun rule _ => LegacyRule.encode_eq_self ?_ rule
    simp [LegacyRule.Untouched, kind_headerText shown.header]
  have uses : annotationLines c.annotations = (d.annotations.map printUse).map String.ofList := by
    rw [← map_line_sortAnnotations, List.map_map]
    rfl
  refine ⟨d, lines, same, ?_, ?_, ?_⟩
  · have all : MemberKind.writeOrder.mapM (w.kindLines c c.scope) = .ok (MemberKind.writeOrder.map fun kind =>
        (nullLines w c kind ++ memberOldLines w.format.rules c.name (ms kind)).map (String.ofList ·.1)) :=
      mapM_ok fun kind _ => written kind
    have scope : Erasure.empty.nest (c.typeParameters.map String.toList) = c.scope := rfl
    have head : formatClassHeader w.style ⟨c.modifiers.visible, c.name, c.typeParameters⟩ = d.headerText :=
      headerText_project w c
    simp only [classLines, scope, head, header, ok_bind, all, uses, hiddenLines_project, pure_eq_ok_except]
    simp only [lines, List.map_append, List.map_cons, List.map_flatMap, List.map_map, ← List.flatMap_def,
      List.append_assoc, List.cons_append, List.nil_append, Function.comp_def]
    rfl
  · refine ((SaysSo.uses shown.annotations).append ?_).append ?_ |>.append ?_
    · intro l mem
      obtain ⟨kind, -, mem⟩ := List.mem_flatMap.1 mem
      refine (saysSo_nullLines w c kind).append (saysSo_members (fun m inKind => ?_) fun m inKind => ?_) l mem
      · obtain ⟨n, inKept, rfl⟩ := List.mem_map.1 ((perm kind).subset inKind)
        exact spelled kind n inKept
      · exact (shown.members kind m (members ▸ inKind)).annotations
    · exact .hidden kind_hiddenFieldsTag (.inl rfl) (by simp [hiddenFieldsTag]) shown.hiddenFields
    · exact .hidden kind_hiddenClassesTag (.inr rfl) (by simp [hiddenClassesTag]) shown.hiddenClasses
  · simp only [lines, List.filterMap_append, filterMap_asIs, List.filterMap_flatMap, filterMap_nullLines,
      filterMap_memberOldLines, List.nil_append, bodyLines, members]
    rfl

/-- A class whose members have transparent old spellings is written in any format, and from the file is read
what is kept of it, in another order. -/
theorem readAll_spelled {f : Format} (known : f ∈ Format.newestFirst) (noModule : c.moduleInfo = none)
    (erases : c.ErasesThrows f.supports) (printable : (c.project f.supports).Printable)
    (spelled : (c.project f.supports).Spelled f.rules) :
    ∃ text d r, (Writer.ofFormat f).writeAll [c] = .ok text ∧
      (Reader.ofFormat f (ofText text)).readAll = (.ok [d], r) ∧ d.SameUpToOrder (c.project f.supports) := by
  let w := Writer.ofFormat f
  obtain ⟨d, lines, same, written, decoded, told⟩ := Writer.classLines_spelled (w := w) erases printable spelled
  have shown := printable.congr same
  let block := d.headerText :: lines.map Prod.fst
  have back : (block.map String.ofList).map String.toList = block := by simp [Function.comp_def]
  have whole : w.block c = .ok ((block ++ [[]]).flatMap Writer.lined) := by
    rw [Writer.block, noModule]
    simp only [written, map_ok, back, block]
  have single : ∀ line ∈ block, SingleLine line := by
    intro line mem
    rcases List.mem_cons.1 mem with rfl | mem
    · exact shown.singleLine.1
    · obtain ⟨l, inLines, rfl⟩ := List.mem_map.1 mem
      exact (decoded l inLines).2
  have active : w.active = f.supports := by
    funext feature
    exact Bool.and_self _
  have reads : ReadsBlock w.format w.active block d := by
    rw [active]
    refine .ofClass shown ((carried_project c).congr same) (lines.map Prod.snd) ?_ ?_
    · rw [List.forall₂_map_left_iff, List.forall₂_map_right_iff, List.forall₂_same, same.name]
      exact fun l inLines => (decoded l inLines).1
    · rw [List.reduceOption, List.filterMap_map, ← told]
      rfl
  obtain ⟨r, read, -⟩ := readAll_file (w := w) known (by simp [SingleLine, w, Writer.ofFormat])
    (by simp [Writer.copyrightTexts, w, Writer.ofFormat]) [(block, d)]
    (fun b mem => by obtain rfl := List.mem_singleton.1 mem; exact single)
    (fun b mem => by obtain rfl := List.mem_singleton.1 mem; exact reads)
  have text : w.writeAll [c] = .ok ((fileLines w [block]).flatMap Writer.lined) := by
    rw [@Writer.writeAll_eq_ok w (fun _ => (block ++ [[]]).flatMap Writer.lined) _ fun e mem => by
      obtain rfl := List.mem_singleton.1 mem
      exact whole]
    have header : w.writeHeader.1 = w.header := rfl
    rw [header, Writer.header_eq, fileLines, List.flatMap_append]
    simp
  exact ⟨_, d, r, text, read, same⟩

end ApiSurface
