import ApiSurface.Proofs.SignatureFile.Header
import ApiSurface.Proofs.SignatureFile.Left
import ApiSurface.Proofs.SignatureFile.Projection

/-!
What a reader makes of the blocks that it accepts. It is lenient, but the classes that it gives have the
shape that lines give back, except that lists of hidden names can be empty. Main statements: each line of a
block keeps that shape (`FromLines.add`), every class of a file that was read has it
(`wasRead_of_readAll`), and such a class is printable without its empty lists (`FromLines.printable`).
-/

namespace ApiSurface

open ApiSurface.Text ApiSurface.Line

/-! ### The shape of what was read -/

/-- A member that was read from lines of a block, in a class of this name and listed under this kind. If the
lines hold no stray carriage return, neither does the member. -/
structure Member.FromLines (single : Prop) (className : String) (kind : MemberKind) (m : Member) : Prop where
  kind : m.kind = kind
  declaring : m.declaringClass = className
  written : Visible m.modifiers
  sound : SoundDetail className m.name m.detail
  singleLine : single → SingleLineDetail className m.name m.detail
  annotations : ∀ use ∈ m.annotations, Annotated.SoundUse use ∧ (single → SingleLine (printUse use))

/-- Hidden names that were read from a line; there may be none. -/
def HiddenFromLines (single : Prop) (names : Ordered.Set String) : Prop :=
  SoundHidden names ∧ (single → ∀ name ∈ names.toList, SingleLine name.toList)

namespace Member

/-- A member is kept as it is if generics are and no constant of it is left out. -/
theorem project_eq_self {active : Feature → Bool} {m : Member} {scope : Erasure}
    (generics : active .tigerInfo = true) (written : Visible m.modifiers)
    (constants : active .constInfo = false → m.constant? = none) :
    m.project active scope = m := by
  have visible : m.modifiers.visible = m.modifiers := written
  have type (scope : Erasure) (text : String) : keptType active scope text = text := by
    simp [keptType, generics]
  have list (scope : Erasure) (texts : List String) : texts.map (keptType active scope) = texts :=
    (List.map_congr_left fun text _ => type scope text).trans (List.map_id _)
  have parameters (ps : Option String) : keptParameters active ps = ps := by
    simp [keptParameters, generics]
  obtain ⟨declaring, name, set, uses, detail⟩ := m
  cases detail with
  | field fieldType constant =>
    have kept : (if active .constInfo then constant else none) = constant := by
      split
      · rfl
      · rename_i left
        exact (constants (by simpa using left)).symm
    simp only [project, Detail.keptName, Detail.project, type, kept, visible]
  | superclass | superinterface | nested | method | constructor =>
    simp only [project, Detail.keptName, Detail.project, type, list, parameters, visible]

end Member

namespace ClassDescription

/-- A class that was read from the lines of a block while these features were active. -/
structure FromLines (active : Feature → Bool) (single : Prop) (c : ClassDescription) : Prop where
  header : SoundHeader c.name c.typeParameters
  headerLine : single → SingleLine (headerToken c.name c.typeParameters)
  written : Visible c.modifiers
  members : ∀ kind, ∀ m ∈ c.members kind, m.FromLines single c.name kind
  annotations : ∀ use ∈ c.annotations, Annotated.SoundUse use ∧ (single → SingleLine (printUse use))
  hiddenFields : ∀ names ∈ c.hiddenFields, HiddenFromLines single names
  hiddenClasses : ∀ names ∈ c.hiddenClasses, HiddenFromLines single names
  noModule : c.moduleInfo = none
  carried : c.Carried active

/-- The class without lists of hidden names that are empty. -/
def withoutEmpty (c : ClassDescription) : ClassDescription :=
  { c with hiddenFields := nonempty? c.hiddenFields, hiddenClasses := nonempty? c.hiddenClasses }

variable {active : Feature → Bool} {single : Prop} {c : ClassDescription}

theorem mem_nonempty? {names : Option (Ordered.Set String)} {set : Ordered.Set String}
    (mem : set ∈ nonempty? names) : set ∈ names ∧ set.isEmpty = false := by
  obtain ⟨listed, filled⟩ := Option.filter_eq_some_iff.1 mem
  exact ⟨listed, by simpa using filled⟩

/-- What was read from lines is printable without its empty lists. -/
theorem FromLines.printable (h : c.FromLines active single) (one : single) : c.withoutEmpty.Printable := by
  have use {u : AnnotationUse} (read : Annotated.SoundUse u ∧ (single → SingleLine (printUse u))) :
      u.Printable := ⟨Annotated.ofLine_printUse read.1, read.2 one⟩
  have hidden {names : Option (Ordered.Set String)} (all : ∀ set ∈ names, HiddenFromLines single set) :
      ∀ set ∈ nonempty? names, PrintableHidden set := by
    intro set mem
    obtain ⟨listed, filled⟩ := mem_nonempty? mem
    exact ⟨filled, (all set listed).1, (all set listed).2 one⟩
  refine ⟨h.header, h.headerLine one, h.written, fun kind m mem => ?_, fun u mem => use (h.annotations u mem),
    hidden h.hiddenFields, hidden h.hiddenClasses, h.noModule⟩
  have read := h.members kind m mem
  exact ⟨read.kind, read.declaring, read.written, read.sound, read.singleLine one,
    fun u inside => use (read.annotations u inside)⟩

theorem FromLines.carried_withoutEmpty (h : c.FromLines active single) : c.withoutEmpty.Carried active := by
  refine ⟨h.carried.constants, fun left => ?_⟩
  obtain ⟨fields, classes⟩ := h.carried.hidden left
  simp [withoutEmpty, fields, classes, nonempty?]

/-- What was read belongs to its own class. -/
theorem FromLines.declared_eq (h : c.FromLines active single) (kind : MemberKind) :
    c.declared kind = c.members kind := by
  refine List.filter_eq_self.2 fun m mem => ?_
  have read := h.members kind m mem
  have direct : m.isDirect = true := by
    have sound := read.sound
    unfold Member.isDirect
    split
    · rename_i b same
      rw [same] at sound
      exact sound.1
    · rfl
  simp [read.declaring, direct]

/-- All of what was read is kept, if generics are. -/
theorem FromLines.project_eq (h : c.FromLines active single) (generics : active .tigerInfo = true) :
    c.project active = c.withoutEmpty := by
  have same (kind : MemberKind) : (c.declared kind).map (Member.project active c.scope) = c.members kind := by
    rw [h.declared_eq]
    refine (List.map_congr_left fun m mem => ?_).trans (List.map_id _)
    have read := h.members kind m mem
    exact Member.project_eq_self generics read.written (h.carried.constant?_eq_none mem read.kind)
  have parameters : keptParameters active c.typeParameters = c.typeParameters := by
    simp [keptParameters, generics]
  have hidden {names : Option (Ordered.Set String)} (none' : active .listOfHiders = false → names = none) :
      (if active .listOfHiders then nonempty? names else none) = nonempty? names := by
    split
    · rfl
    · rename_i left
      rw [none' (by simpa using left)]
      rfl
  have visible : c.modifiers.visible = c.modifiers := h.written
  simp only [project, same, parameters, visible, hidden fun left => (h.carried.hidden left).1,
    hidden fun left => (h.carried.hidden left).2]
  rw [show (fun kind => c.members kind) = c.members from rfl, withMembers_members]
  rfl

/-- The fewer features are active, the less a class carries. -/
theorem FromLines.mono {more : Feature → Bool} (h : c.FromLines active single)
    (also : ∀ x, active x = true → more x = true) : c.FromLines more single := by
  have less {x : Feature} (left : more x = false) : active x = false := by
    cases on : active x with
    | false => rfl
    | true => exact absurd (also x on) (by simp [left])
  exact ⟨h.header, h.headerLine, h.written, h.members, h.annotations, h.hiddenFields, h.hiddenClasses, h.noModule,
    ⟨fun left => h.carried.constants (less left), fun left => h.carried.hidden (less left)⟩⟩

/-- A class none of whose texts goes beyond its line. -/
structure StaysOnLines (c : ClassDescription) : Prop where
  header : SingleLine (headerToken c.name c.typeParameters)
  members : ∀ kind, ∀ m ∈ c.members kind, SingleLineDetail c.name m.name m.detail ∧
    ∀ use ∈ m.annotations, SingleLine (printUse use)
  annotations : ∀ use ∈ c.annotations, SingleLine (printUse use)
  hiddenFields : ∀ names ∈ c.hiddenFields, ∀ name ∈ names.toList, SingleLine name.toList
  hiddenClasses : ∀ names ∈ c.hiddenClasses, ∀ name ∈ names.toList, SingleLine name.toList

/-- Whatever lines it was read from, a class stays on lines of its own if its texts do. -/
theorem FromLines.of_staysOnLines {before : Prop} (h : c.FromLines active before) (one : c.StaysOnLines) :
    c.FromLines active single := by
  refine ⟨h.header, fun _ => one.header, h.written, fun kind m mem => ?_,
    fun use mem => ⟨(h.annotations use mem).1, fun _ => one.annotations use mem⟩,
    fun names mem => ⟨(h.hiddenFields names mem).1, fun _ => one.hiddenFields names mem⟩,
    fun names mem => ⟨(h.hiddenClasses names mem).1, fun _ => one.hiddenClasses names mem⟩, h.noModule, h.carried⟩
  have read := h.members kind m mem
  obtain ⟨detail, uses⟩ := one.members kind m mem
  exact ⟨read.kind, read.declaring, read.written, read.sound, fun _ => detail,
    fun use inside => ⟨(read.annotations use inside).1, fun _ => uses use inside⟩⟩

/-- A printable class could have been read from its own lines. -/
theorem Printable.fromLines (h : c.Printable) (carried : c.Carried active) : c.FromLines active single := by
  have use {u : AnnotationUse} (printable : u.Printable) :
      Annotated.SoundUse u ∧ (single → SingleLine (printUse u)) :=
    ⟨(Annotated.of_ofLine printable.1).1, fun _ => printable.2⟩
  refine ⟨h.header, fun _ => h.headerLine, h.written, fun kind m mem => ?_, fun u mem => use (h.annotations u mem),
    fun names mem => ⟨(h.hiddenFields names mem).sound, fun _ => (h.hiddenFields names mem).singleLine⟩,
    fun names mem => ⟨(h.hiddenClasses names mem).sound, fun _ => (h.hiddenClasses names mem).singleLine⟩,
    h.noModule, carried⟩
  have printable := h.members kind m mem
  exact ⟨printable.kind, printable.declaring, printable.written, printable.sound, fun _ => printable.singleLine,
    fun u inside => use (printable.annotations u inside)⟩

/-- All of a printable class is kept, if generics are. -/
theorem Printable.project_eq (h : c.Printable) (carried : c.Carried active) (generics : active .tigerInfo = true) :
    c.project active = c := by
  have filled {names : Option (Ordered.Set String)} (all : ∀ set ∈ names, PrintableHidden set) :
      nonempty? names = names := by
    cases names with
    | none => rfl
    | some set => simp [nonempty?, Option.filter, (all set rfl).filled]
  have read : c.FromLines active True := Printable.fromLines h carried
  rw [read.project_eq generics, withoutEmpty, filled h.hiddenFields, filled h.hiddenClasses]

/-! ### Members of a changed class -/

/-- A member of a changed class is an old one of another kind or comes from the change. -/
theorem mem_members_updateMembers {kind other : MemberKind} {change : List Member → List Member} {m : Member}
    (mem : m ∈ (c.updateMembers kind change).members other) :
    m ∈ c.members other ∨ other = kind ∧ m ∈ change (c.members kind) := by
  cases kind with
  | superclass =>
    cases other with
    | superclass =>
      refine .inr ⟨rfl, List.mem_of_mem_getLast? ?_⟩
      simpa [updateMembers, members] using mem
    | superinterface | field | method | constructor | nested => exact .inl mem
  | superinterface | field | method | constructor | nested =>
    cases other <;> first | exact .inl mem | exact .inr ⟨rfl, mem⟩

@[simp] theorem name_updateMembers (c : ClassDescription) (kind : MemberKind)
    (change : List Member → List Member) : (c.updateMembers kind change).name = c.name := by
  cases kind <;> rfl

/-- A change of members leaves everything else alone. -/
theorem FromLines.update (h : c.FromLines active single) {kind : MemberKind}
    {change : List Member → List Member}
    (each : ∀ m ∈ change (c.members kind), m.FromLines single c.name kind ∧
      (active .constInfo = false → m.constant? = none)) :
    (c.updateMembers kind change).FromLines active single := by
  have members : ∀ other, ∀ m ∈ (c.updateMembers kind change).members other,
      m.FromLines single (c.updateMembers kind change).name other := by
    intro other m mem
    rw [name_updateMembers]
    rcases mem_members_updateMembers mem with old | ⟨rfl, new⟩
    · exact h.members other m old
    · exact (each m new).1
  have constants : active .constInfo = false → ∀ m ∈ (c.updateMembers kind change).fields,
      m.constant? = none := by
    intro left m mem
    have mem : m ∈ (c.updateMembers kind change).members .field := mem
    rcases mem_members_updateMembers mem with old | ⟨-, new⟩
    · exact h.carried.constants left m old
    · exact (each m new).2 left
  cases kind <;> exact ⟨h.header, h.headerLine, h.written, members, h.annotations, h.hiddenFields,
    h.hiddenClasses, h.noModule, constants, h.carried.hidden⟩

/-- Without constants no member of any kind has one. -/
theorem FromLines.constants (h : c.FromLines active single) (left : active .constInfo = false)
    {kind : MemberKind} {m : Member} (mem : m ∈ c.members kind) : m.constant? = none := by
  have filed := (h.members kind m mem).kind
  cases detail : m.detail with
  | field type constant =>
    obtain rfl : kind = .field := by simpa [Member.kind, detail, Detail.kind] using filed.symm
    exact h.carried.constants left m mem
  | superclass | superinterface | nested | method | constructor => simp [Member.constant?, detail]

/-- One more member. -/
theorem FromLines.addMember (h : c.FromLines active single) {m : Member}
    (read : m.FromLines single c.name m.kind) (carried : active .constInfo = false → m.constant? = none) :
    (c.addMember m).FromLines active single := by
  refine h.update fun n mem => ?_
  rcases List.mem_append.1 mem with old | new
  · exact ⟨h.members _ n old, fun left => h.constants left old⟩
  · obtain rfl := List.mem_singleton.1 new
    exact ⟨read, carried⟩

end ClassDescription

namespace SignatureFile

open ClassDescription

variable {active : Feature → Bool} {single : Prop} {c : ClassDescription} {d e : ClassDraft}

/-! ### One line -/

theorem mem_annotateLast {use : AnnotationUse} {ms : List Member} {m : Member}
    (mem : m ∈ annotateLast use ms) : m ∈ ms ∨ ∃ n ∈ ms, m = n.annotate use := by
  induction ms with
  | nil => cases mem
  | cons n ms ih =>
    cases ms with
    | nil => exact .inr ⟨n, by simp, by simpa [annotateLast] using mem⟩
    | cons o ms =>
      rw [annotateLast] at mem
      rcases List.mem_cons.1 mem with rfl | mem
      · exact .inl (by simp)
      · rcases ih mem with old | ⟨p, inMore, same⟩
        · exact .inl (List.mem_cons_of_mem _ old)
        · exact .inr ⟨p, List.mem_cons_of_mem _ inMore, same⟩

/-- An annotation is put on the class or on one of its members. -/
theorem FromLines.annotate (h : d.description.FromLines active single) {use : AnnotationUse}
    (read : Annotated.SoundUse use ∧ (single → SingleLine (printUse use))) :
    (d.annotate use).description.FromLines active single := by
  unfold ClassDraft.annotate
  split
  · refine ⟨h.header, h.headerLine, h.written, h.members, fun other mem => ?_, h.hiddenFields,
      h.hiddenClasses, h.noModule, ⟨h.carried.constants, h.carried.hidden⟩⟩
    rcases List.mem_append.1 mem with mem | mem
    · exact h.annotations other mem
    · obtain rfl := List.mem_singleton.1 mem
      exact read
  · rename_i kind latest
    refine h.update fun m mem => ?_
    rcases mem_annotateLast mem with old | ⟨n, inKind, rfl⟩
    · exact ⟨h.members kind m old, fun left => h.constants left old⟩
    · have old := h.members kind n inKind
      refine ⟨⟨old.kind, old.declaring, old.written, old.sound, old.singleLine, fun other mem => ?_⟩,
        fun left => (h.constants left inKind : n.constant? = none)⟩
      rcases List.mem_append.1 mem with mem | mem
      · exact old.annotations other mem
      · obtain rfl := List.mem_singleton.1 mem
        exact read

/-- A member without its constant is read from the line without it. -/
theorem FromLines.withoutConstant {className : String} {kind : MemberKind} {m : Member}
    (h : m.FromLines single className kind) :
    m.withoutConstant.FromLines single className kind ∧ m.withoutConstant.constant? = none := by
  obtain ⟨declaring, name, set, uses, detail⟩ := m
  cases detail with
  | field type constant =>
    obtain ⟨typed, word, whole, noMark, named, nameWhole, -⟩ := h.sound
    refine ⟨⟨h.kind, h.declaring, h.written, ⟨typed, word, whole, noMark, named, nameWhole, by simp⟩,
      fun one => ?_, h.annotations⟩, rfl⟩
    obtain ⟨first, second, -⟩ := h.singleLine one
    exact ⟨first, second, by simp⟩
  | superclass | superinterface | nested | method | constructor => exact ⟨h, rfl⟩

/-- Each line of a block keeps the shape of what was read. -/
theorem FromLines.add (h : d.description.FromLines active single) {line : BlockLine}
    (one : single → SingleLine line.text) (read : d.add active line = .ok e) :
    e.description.FromLines active single ∧ e.description.name = d.description.name := by
  have hidden : HiddenFromLines single (Line.parseHidden line.text) := by
    obtain ⟨sound, stays⟩ := sound_of_parseHidden line.text
    exact ⟨sound, fun given => stays (one given)⟩
  unfold ClassDraft.add at read
  dsimp only at read
  split at read
  · split at read
    · rename_i use found
      cases read
      obtain ⟨sound, stays⟩ := Annotated.of_ofLine found
      refine ⟨FromLines.annotate h ⟨sound, fun given => stays (one given)⟩, ?_⟩
      unfold ClassDraft.annotate
      split
      · rfl
      · exact name_updateMembers _ _ _
    · cases read
  · rename_i kind _
    split at read
    · rename_i m found
      cases read
      obtain ⟨filed, declaring, bare, written, sound, stays⟩ := readMember_of_parseMember found
      have whole : m.FromLines single d.description.name kind :=
        ⟨filed, declaring, written, sound, fun given => stays (one given), by simp [bare]⟩
      refine ⟨?_, name_updateMembers _ _ _⟩
      split
      · rename_i on
        exact h.addMember (filed.symm ▸ whole) fun left => by simp [on] at left
      · obtain ⟨bare, none⟩ := FromLines.withoutConstant whole
        exact h.addMember (bare.kind.symm ▸ bare) fun _ => none
    · cases read
  · cases read
    split
    · rename_i on
      refine ⟨⟨h.header, h.headerLine, h.written, h.members, h.annotations, fun names mem => ?_,
        h.hiddenClasses, h.noModule, h.carried.constants, fun left => by simp [on] at left⟩, rfl⟩
      obtain rfl := Option.some.inj mem
      exact hidden
    · exact ⟨h, rfl⟩
  · cases read
    split
    · rename_i on
      refine ⟨⟨h.header, h.headerLine, h.written, h.members, h.annotations, h.hiddenFields,
        fun names mem => ?_, h.noModule, h.carried.constants, fun left => by simp [on] at left⟩, rfl⟩
      obtain rfl := Option.some.inj mem
      exact hidden
    · exact ⟨h, rfl⟩
  · cases read

/-! ### Blocks -/

/-- A block that was read as a whole has the shape of what was read. -/
theorem FromLines.addAll (h : d.description.FromLines active single) {lines : List BlockLine}
    (one : single → ∀ line ∈ lines, SingleLine line.text) (read : d.addAll active lines = .ok e) :
    e.description.FromLines active single := by
  induction lines generalizing d with
  | nil =>
    cases read
    exact h
  | cons line more ih =>
    rw [ClassDraft.addAll] at read
    split at read
    · cases read
    · rename_i next added
      exact ih (FromLines.add h (fun given => one given line (by simp)) added).1
        (fun given other mem => one given other (by simp [mem])) read

/-- The lines of a block come from the lines ahead, and are left as they are without old spellings. -/
theorem of_gatherClass {rules : List LegacyRule} {className : String} {lines rest : List SourceLine}
    {block : List BlockLine} (read : gatherClass rules className lines = (.ok block, rest)) :
    rest <:+ lines ∧ (rules = [] → ∀ line ∈ block, .text line.number line.text ∈ lines) := by
  generalize given : (Except.ok block : Except ReadError (List BlockLine)) = result at read
  rw [← gathers_iff] at read
  induction read generalizing block with
  | ends | next =>
    cases given
    simp
  | undecodable | misspelled | lost => cases given
  | blank _ _ _ ih | dropped _ _ _ _ ih =>
    obtain ⟨part, all⟩ := ih given
    exact ⟨part.trans (List.suffix_cons _ _), fun modern line mem => List.mem_cons_of_mem _ (all modern line mem)⟩
  | @kept n cs text _ _ _ _ _ decoded _ ih =>
    cases given
    obtain ⟨part, all⟩ := ih rfl
    refine ⟨part.trans (List.suffix_cons _ _), fun modern line mem => ?_⟩
    rcases List.mem_cons.1 mem with rfl | mem
    · subst modern
      obtain rfl : cs = text := by simpa [LegacyRule.decodeAll] using decoded
      simp
    · exact List.mem_cons_of_mem _ (all modern line mem)

/-- A class that was read has a first line and the lines of its block. -/
theorem exists_of_readClass {f : Format} {n : Nat} {cs : List Char} {rest left : List SourceLine}
    (read : readClass f active n cs rest = (.ok c, left)) :
    ∃ header lines d, Line.parseClassHeader cs = .ok header ∧
      gatherClass f.rules header.name rest = (.ok lines, left) ∧
      ClassDraft.addAll active ⟨{ ClassDescription.named header.name header.modifiers with
        typeParameters := header.typeParameters }, none⟩ lines = .ok d ∧ c = d.description := by
  cases readsClass_iff.2 read with
  | read first gathered added => exact ⟨_, _, _, first, gathered, added, rfl⟩

/-- A class that was read has the shape of what was read. -/
theorem of_readClass {f : Format} {n : Nat} {cs : List Char} {rest left : List SourceLine}
    (one : single → f.rules = [] ∧ ∀ m t, .text m t ∈ SourceLine.text n cs :: rest → SingleLine t)
    (read : readClass f active n cs rest = (.ok c, left)) :
    c.FromLines active single ∧ left <:+ rest := by
  obtain ⟨header, lines, d, first, gathered, added, rfl⟩ := exists_of_readClass read
  obtain ⟨sound, written, stays⟩ := sound_of_parseClassHeader first
  obtain ⟨suffix, inside⟩ := of_gatherClass gathered
  refine ⟨FromLines.addAll ?_ (fun given line mem => ?_) added, suffix⟩
  · refine ⟨sound, fun given => stays ((one given).2 n cs (by simp)), written, fun kind m mem => ?_,
      fun use mem => (by cases mem), fun names mem => (by cases mem), fun names mem => (by cases mem), rfl,
      fun _ m mem => (by cases mem), fun _ => ⟨rfl, rfl⟩⟩
    cases kind <;> cases mem
  · obtain ⟨modern, all⟩ := one given
    exact all line.number line.text (List.mem_cons_of_mem _ (inside modern line mem))

/-- What was read from a file: a module, or a class of the shape that lines have. -/
def WasRead (active : Feature → Bool) (single : Prop) (c : ClassDescription) : Prop :=
  (∃ m, c = .ofModule m ∧ active .moduleInfo) ∨ c.FromLines active single

/-- Where a class that was read from these lines comes from: it is a module, or one of the lines is the first one of
its block. -/
def ReadFrom (f : Format) (active : Feature → Bool) (lines : List SourceLine) (c : ClassDescription) : Prop :=
  (∃ m, c = .ofModule m ∧ active .moduleInfo) ∨
    ∃ n cs rest left, SourceLine.text n cs :: rest <:+ lines ∧ readClass f active n cs rest = (.ok c, left)

theorem ReadFrom.of_suffix {f : Format} {lines more : List SourceLine} (part : more <:+ lines)
    (h : ReadFrom f active more c) : ReadFrom f active lines c :=
  h.imp_right fun ⟨n, cs, rest, left, inside, read⟩ => ⟨n, cs, rest, left, inside.trans part, read⟩

/-- Wherever it comes from, a class that was read has the shape of what was read. -/
theorem ReadFrom.wasRead {f : Format} {lines : List SourceLine} (h : ReadFrom f active lines c)
    (one : single → f.rules = [] ∧ ∀ n t, .text n t ∈ lines → SingleLine t) : WasRead active single c :=
  h.imp_right fun ⟨_, _, _, _, inside, read⟩ =>
    (of_readClass (fun given => ⟨(one given).1, fun m t mem => (one given).2 m t (inside.subset mem)⟩) read).1

/-- A block that was read gives a module or a class from these lines. -/
theorem of_readBlock {f : Format} {limit : Nat} {lines left : List SourceLine} {c : ClassDescription}
    (read : readBlock f active limit lines = (.ok (some c), left)) :
    ReadFrom f active lines c ∧ left <:+ lines := by
  generalize given : (Except.ok (some c) : Except ReadError (Option ClassDescription)) = result at read
  rw [← findsBlock_iff] at read
  induction read with
  | stops | ends | undecodable | noBlock | badModule | badClass => cases given
  | blank _ _ ih =>
    obtain ⟨origin, suffix⟩ := ih given
    exact ⟨origin.of_suffix (List.suffix_cons _ _), suffix.trans (List.suffix_cons _ _)⟩
  | @module limit n cs rest left m _ _ read on =>
    cases given
    exact ⟨.inl ⟨m, rfl, on⟩, (leftOf_readModule read).suffix⟩
  | hidden _ _ read _ _ ih =>
    obtain ⟨origin, suffix⟩ := ih given
    have behind := (leftOf_readModule read).suffix
    exact ⟨origin.of_suffix behind, suffix.trans behind⟩
  | @class' limit n cs rest left d _ _ read =>
    cases given
    exact ⟨.inr ⟨n, cs, rest, left, List.suffix_rfl, read⟩, (leftOf_readClass read).suffix⟩

/-! ### Files -/

/-- What a reader behind the header gives next. -/
theorem of_readNext {r r' : Reader} {found : Option ClassDescription} (opened : r.phase ≠ .unopened)
    (read : r.readNext = (.ok found, r')) :
    r'.format = r.format ∧ r'.header = r.header ∧ r'.phase ≠ .unopened ∧
      ∀ c ∈ found, ReadFrom r.format r.hasFeature r.lines c ∧ r'.lines <:+ r.lines := by
  have stays : r.readHeader = (.ok (), r) := by simp [Reader.readHeader, opened]
  have here {behind : Reader} (header : r.readHeader = (.ok (), behind)) : behind = r :=
    (Prod.mk.inj (header.symm.trans stays)).2
  cases Reader.readsNext_iff.2 read with
  | closed header _ =>
    obtain rfl := here header
    exact ⟨rfl, rfl, opened, by simp⟩
  | ends header _ _ =>
    obtain rfl := here header
    exact ⟨rfl, rfl, by simp, by simp⟩
  | read header _ block =>
    obtain rfl := here header
    refine ⟨rfl, rfl, opened, fun d mem => ?_⟩
    obtain rfl := Option.some.inj mem
    exact of_readBlock block

/-- What a reader behind the header gives altogether. -/
theorem of_readUpTo {r r' : Reader} {limit : Nat} {cs : List ClassDescription} (opened : r.phase ≠ .unopened)
    (read : r.readUpTo limit = (.ok cs, r')) :
    r'.format = r.format ∧ r'.header = r.header ∧ ∀ c ∈ cs, ReadFrom r.format r.hasFeature r.lines c := by
  generalize given : (Except.ok cs : Except ReadError (List ClassDescription)) = result at read
  rw [← Reader.readsUpTo_iff] at read
  induction read generalizing cs with
  | stops =>
    cases given
    exact ⟨rfl, rfl, by simp⟩
  | fails | loses => cases given
  | ends finished =>
    cases given
    obtain ⟨format, header, -⟩ := of_readNext opened finished
    exact ⟨format, header, by simp⟩
  | @reads _ r behind _ c _ next _ ih =>
    cases given
    obtain ⟨format, header, still, first⟩ := of_readNext opened next
    obtain ⟨origin, suffix⟩ := first c rfl
    obtain ⟨format', header', all⟩ := ih still rfl
    have same : behind.hasFeature = r.hasFeature := by
      funext feature
      rw [Reader.hasFeature, Reader.hasFeature, format, header]
    refine ⟨format'.trans format, header'.trans header, fun d mem => ?_⟩
    rcases List.mem_cons.1 mem with rfl | mem
    · exact origin
    · have inside := all d mem
      rw [same, format] at inside
      exact inside.of_suffix suffix

/-- A file whose header was read goes on behind it. -/
theorem of_readHeader {r r' : Reader} (fresh : r.phase = .unopened) (read : r.readHeader = (.ok (), r')) :
    r'.format = r.format ∧ r'.phase = .reading ∧ r'.lines <:+ r.lines := by
  unfold Reader.readHeader at read
  rw [if_neg (by simp [fresh])] at read
  split at read
  · cases read
  · cases read
  · rename_i n cs rest lines
    split at read
    · cases read
    · cases found : readHeaderLines r.header rest with
      | mk result more =>
        obtain ⟨header, behind⟩ := more
        rw [found] at read
        cases result with
        | error e => cases read
        | ok =>
          cases read
          refine ⟨rfl, rfl, ?_⟩
          rw [lines]
          exact (leftOf_readHeaderLines found).1.trans (List.suffix_cons _ _)

/-- A file that was read is its header and what comes behind it. -/
theorem exists_of_readAll {f : Format} {lines : List SourceLine} {cs : List ClassDescription} {r : Reader}
    (read : (Reader.ofFormat f lines).readAll = (.ok cs, r)) :
    ∃ behind, (Reader.ofFormat f lines).readHeader = (.ok (), behind) ∧ behind.phase = .reading ∧
      behind.readUpTo (lines.length + 1) = (.ok cs, r) := by
  rw [Reader.readAll] at read
  cases opened : (Reader.ofFormat f lines).readHeader with
  | mk result behind =>
    cases result with
    | error e => simp [Reader.readUpTo, Reader.readNext, opened] at read
    | ok =>
      obtain ⟨-, phase, -⟩ := of_readHeader rfl opened
      rw [readUpTo_of_readHeader opened phase] at read
      exact ⟨behind, rfl, phase, read⟩

/-- Every class of a file that was read comes from its lines. -/
theorem readFrom_of_readAll {f : Format} {lines : List SourceLine} {cs : List ClassDescription} {r : Reader}
    (read : (Reader.ofFormat f lines).readAll = (.ok cs, r)) :
    r.format = f ∧ ∀ c ∈ cs, ReadFrom f r.hasFeature lines c := by
  obtain ⟨behind, opened, phase, read⟩ := exists_of_readAll read
  obtain ⟨format, -, suffix⟩ := of_readHeader rfl opened
  obtain ⟨format', header, all⟩ := of_readUpTo (by simp [phase]) read
  have same : r.hasFeature = behind.hasFeature := by
    funext feature
    rw [Reader.hasFeature, Reader.hasFeature, format', header]
  refine ⟨format'.trans format, fun c mem => ?_⟩
  have inside := all c mem
  rw [← same, format] at inside
  exact inside.of_suffix suffix

/-- Every class of a file that was read has the shape that lines give back. -/
theorem wasRead_of_readAll {f : Format} {lines : List SourceLine} {cs : List ClassDescription} {r : Reader}
    (one : single → f.rules = [] ∧ ∀ n t, .text n t ∈ lines → SingleLine t)
    (read : (Reader.ofFormat f lines).readAll = (.ok cs, r)) :
    r.format = f ∧ ∀ c ∈ cs, WasRead r.hasFeature single c :=
  (readFrom_of_readAll read).imp_right fun all c mem => (all c mem).wasRead one

end SignatureFile
end ApiSurface
