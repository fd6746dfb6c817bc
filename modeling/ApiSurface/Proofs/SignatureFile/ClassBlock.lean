import ApiSurface.Proofs.Annotated.Accepted
import ApiSurface.Proofs.Class
import ApiSurface.Proofs.Line.Header
import ApiSurface.Proofs.SignatureFile.Lines
import ApiSurface.SignatureFile.Reader

/-!
Class blocks written and read, in the spelling of today. A class is printable if every line of its block
gives back what it told; the reader of the block then ends with that class, every member under its kind
and every annotation where it was. Main statements: the lines of a printable class are lines
(`ClassDescription.Printable.singleLine`), and the class is read back from them (`addAll_bodyLines`).
-/

namespace ApiSurface

open ApiSurface.Text ApiSurface.Line

/-! ### Printable classes -/

/-- An annotation that its line gives back. -/
def AnnotationOf.Printable (use : AnnotationUse) : Prop :=
  Annotated.ofLine (printUse use) = .ok use ∧ SingleLine (printUse use)

/-- A member that its lines give back, in a class of this name and listed under this kind. -/
structure Member.Printable (className : String) (kind : MemberKind) (m : Member) : Prop where
  kind : m.kind = kind
  declaring : m.declaringClass = className
  written : Visible m.modifiers
  sound : SoundDetail className m.name m.detail
  singleLine : SingleLineDetail className m.name m.detail
  annotations : ∀ use ∈ m.annotations, use.Printable

/-- Hidden names that their line gives back. -/
structure PrintableHidden (names : Ordered.Set String) : Prop where
  filled : names.isEmpty = false
  sound : SoundHidden names
  singleLine : ∀ name ∈ names.toList, SingleLine name.toList

namespace ClassDescription

/-- A class that the lines of its block give back. -/
structure Printable (c : ClassDescription) : Prop where
  header : SoundHeader c.name c.typeParameters
  headerLine : SingleLine (headerToken c.name c.typeParameters)
  written : Visible c.modifiers
  members : ∀ kind, ∀ m ∈ c.members kind, m.Printable c.name kind
  annotations : ∀ use ∈ c.annotations, use.Printable
  hiddenFields : ∀ names ∈ c.hiddenFields, PrintableHidden names
  hiddenClasses : ∀ names ∈ c.hiddenClasses, PrintableHidden names
  noModule : c.moduleInfo = none

/-! ### Lines of a block -/

/-- The line of a member and those of its annotations. -/
def memberLines (className : String) (m : Member) : List (List Char) :=
  formatMember .full .empty className m :: m.annotations.map printUse

/-- The line of hidden names, if there are any. -/
def hiddenLine (tag : String) (names : Option (Ordered.Set String)) : List (List Char) :=
  (names.map (formatHidden tag)).toList

/-- The lines of the block behind the first one. -/
def bodyLines (c : ClassDescription) : List (List Char) :=
  c.annotations.map printUse ++
    MemberKind.writeOrder.flatMap (fun kind => (c.members kind).flatMap (memberLines c.name)) ++
    hiddenLine hiddenFieldsTag c.hiddenFields ++ hiddenLine hiddenClassesTag c.hiddenClasses

/-- The first line of the block. -/
def headerText (c : ClassDescription) : List Char :=
  formatClassHeader .full ⟨c.modifiers, c.name, c.typeParameters⟩

end ClassDescription

namespace Line

theorem singleLine_joinTokens {ts : List (List Char)} (h : ∀ t ∈ ts, SingleLine t) :
    SingleLine (joinTokens ts) :=
  .join (by simp) fun t mem => h t (List.mem_of_mem_filter mem)

theorem singleLine_keywordTokens {set : Modifiers} {t : List Char} (mem : t ∈ keywordTokens set) :
    SingleLine t := by
  obtain ⟨word, listed, rfl⟩ := List.mem_map.1 mem
  obtain ⟨m, -, named⟩ := List.mem_filterMap.1 listed
  cases m <;> simp only [Modifier.keyword?, Option.some.injEq, reduceCtorEq] at named <;> subst named <;> simp

theorem singleLine_tag (kind : MemberKind) : SingleLine kind.tag.toList := by
  cases kind <;> simp [MemberKind.tag]

theorem singleLine_throws {exceptions : List String} (h : ∀ e ∈ exceptions, SingleLine e.toList)
    (scope : Erasure) : ∀ t ∈ throwsTokens .full scope exceptions, SingleLine t := by
  intro t mem
  have listed : SingleLine (join [','] (exceptions.map String.toList)) := by
    refine .join (by simp) fun p inList => ?_
    obtain ⟨e, inside, rfl⟩ := List.mem_map.1 inList
    exact h e inside
  unfold throwsTokens at mem
  split_ifs at mem
  · cases mem
  · obtain rfl := List.mem_singleton.1 mem
    have word : SingleLine throwsWord := by decide
    simpa [word, styled, LineStyle.full] using listed

theorem singleLine_parameters {parameters : Option String} (h : ∀ list ∈ parameters, SingleLine list.toList) :
    SingleLine (parametersToken .full parameters) := by
  cases parameters with
  | none => simp [parametersToken, LineStyle.full]
  | some list => simpa [parametersToken, LineStyle.full] using h list rfl

/-- What follows the modifiers of a member whose parts stay on one line. -/
theorem singleLine_detailTokens {className : String} {m : Member} (sound : SoundDetail className m.name m.detail)
    (h : SingleLineDetail className m.name m.detail) (scope : Erasure) :
    ∀ t ∈ detailTokens .full scope className m, SingleLine t := by
  obtain ⟨declaring, name, set, uses, detail⟩ := m
  intro t mem
  cases detail with
  | superclass | superinterface direct =>
    obtain rfl : t = name.toList := by simpa [detailTokens, styled, LineStyle.full] using mem
    exact h
  | nested =>
    obtain ⟨simple, rfl, -⟩ := sound
    have stripped : afterLead? (className.toList ++ ['$']) (className.toList ++ '$' :: simple) = some simple := by
      simpa using afterLead?_append (className.toList ++ ['$']) simple
    obtain rfl : t = simple := by simpa [detailTokens, stripped] using mem
    exact h t rfl
  | field type constant =>
    obtain ⟨typed, named, valued⟩ := h
    simp only [detailTokens, styled, LineStyle.full, if_true, List.mem_append, List.mem_cons, List.not_mem_nil,
      or_false, Option.mem_toList, Option.map_eq_some_iff] at mem
    rcases mem with (rfl | rfl) | ⟨c, given, rfl⟩
    · exact typed
    · exact named
    · simpa using valued c given
  | method parameters result arguments exceptions default =>
    obtain ⟨listed, typed, named, given, thrown, defaults⟩ := h
    simp only [detailTokens, List.mem_append, List.mem_cons, List.not_mem_nil, or_false, Option.mem_toList,
      Option.map_eq_some_iff] at mem
    rcases mem with ((rfl | rfl | rfl) | mem) | ⟨value, found, rfl⟩
    · exact singleLine_parameters listed
    · exact typed
    · exact singleLine_callToken.2 ⟨named, given⟩
    · exact singleLine_throws thrown scope t mem
    · have word : SingleLine defaultWord := by decide
      simpa [word] using defaults value found
  | constructor parameters arguments exceptions =>
    obtain ⟨listed, named, given, thrown⟩ := h
    simp only [detailTokens, List.mem_append, List.mem_cons, List.not_mem_nil, or_false] at mem
    rcases mem with (rfl | rfl) | mem
    · exact singleLine_parameters listed
    · exact singleLine_callToken.2 ⟨named, given⟩
    · exact singleLine_throws thrown scope t mem

/-- The line of a member whose parts stay on one line. -/
theorem singleLine_formatMember {className : String} {m : Member}
    (sound : SoundDetail className m.name m.detail) (h : SingleLineDetail className m.name m.detail)
    (scope : Erasure) : SingleLine (formatMember .full scope className m) := by
  refine singleLine_joinTokens fun t mem => ?_
  simp only [List.mem_append, List.mem_singleton] at mem
  rcases mem with (rfl | mem) | mem
  · exact singleLine_tag _
  · exact singleLine_keywordTokens mem
  · exact singleLine_detailTokens sound h _ t mem

theorem singleLine_formatClassHeader {name : String} {parameters : Option String}
    (h : SingleLine (headerToken name parameters)) (set : Modifiers) :
    SingleLine (formatClassHeader .full ⟨set, name, parameters⟩) := by
  refine singleLine_joinTokens fun t mem => ?_
  simp only [List.mem_append, List.mem_singleton, LineStyle.full, if_true] at mem
  rcases mem with (rfl | mem) | rfl
  · simp [classTag]
  · exact singleLine_keywordTokens mem
  · exact h

end Line

namespace ClassDescription

/-- The lines of a printable class are lines. -/
theorem Printable.singleLine {c : ClassDescription} (h : c.Printable) :
    SingleLine c.headerText ∧ ∀ line ∈ c.bodyLines, SingleLine line := by
  have uses {l : List AnnotationUse} (all : ∀ use ∈ l, use.Printable) :
      ∀ line ∈ l.map printUse, SingleLine line := by
    intro line mem
    obtain ⟨use, inList, rfl⟩ := List.mem_map.1 mem
    exact (all use inList).2
  have hidden {tag : String} {names : Option (Ordered.Set String)} (tagged : SingleLine tag.toList)
      (all : ∀ set ∈ names, PrintableHidden set) : ∀ line ∈ hiddenLine tag names, SingleLine line := by
    intro line mem
    simp only [hiddenLine, Option.mem_toList, Option.map_eq_some_iff] at mem
    obtain ⟨set, found, rfl⟩ := mem
    exact singleLine_formatHidden tagged (all set found).singleLine
  refine ⟨singleLine_formatClassHeader h.headerLine _, fun line mem => ?_⟩
  simp only [bodyLines, List.mem_append, List.mem_flatMap] at mem
  rcases mem with ((mem | ⟨kind, -, m, inKind, mem⟩) | mem) | mem
  · exact uses h.annotations line mem
  · have printable := h.members kind m inKind
    rcases List.mem_cons.1 mem with rfl | mem
    · exact singleLine_formatMember printable.sound printable.singleLine _
    · exact uses printable.annotations line mem
  · exact hidden (by simp [hiddenFieldsTag]) h.hiddenFields line mem
  · exact hidden (by simp [hiddenClassesTag]) h.hiddenClasses line mem

end ClassDescription

/-! ### Reading a block line by line -/

theorem Member.withoutConstant_eq {m : Member} (h : m.constant? = none) : m.withoutConstant = m := by
  obtain ⟨declaring, name, set, uses, detail⟩ := m
  cases detail with
  | field type constant =>
    obtain rfl : constant = none := h
    rfl
  | superclass | superinterface | nested | method | constructor => rfl

@[simp] theorem Member.kind_withoutConstant (m : Member) : m.withoutConstant.kind = m.kind := by
  obtain ⟨_, _, _, _, detail⟩ := m
  cases detail <;> rfl

@[simp] theorem Member.annotations_withoutConstant (m : Member) : m.withoutConstant.annotations = m.annotations := by
  obtain ⟨_, _, _, _, detail⟩ := m
  cases detail <;> rfl

namespace SignatureFile

/-- Lines that say these texts, whatever their numbers are. -/
def Tells (ls : List BlockLine) (texts : List (List Char)) : Prop :=
  ls.map (fun l => (l.kind, l.text)) = texts.map fun t => (LineKind.of t, t)

/-- What becomes of a draft by lines that say these texts. -/
def ReadsTo (active : Feature → Bool) (d : ClassDraft) (texts : List (List Char)) (final : ClassDraft) : Prop :=
  ∀ ls, Tells ls texts → ClassDraft.addAll active d ls = .ok final

variable {active : Feature → Bool} {c : ClassDescription} {d e final : ClassDraft}

theorem addAll_append {a b : List BlockLine} (h : ClassDraft.addAll active d a = .ok e) :
    ClassDraft.addAll active d (a ++ b) = ClassDraft.addAll active e b := by
  induction a generalizing d with
  | nil =>
    cases h
    rfl
  | cons line a ih =>
    simp only [List.cons_append, ClassDraft.addAll] at h ⊢
    split at h
    · cases h
    · exact ih h

namespace ReadsTo

theorem nil : ReadsTo active d [] d := by
  intro ls told
  obtain rfl : ls = [] := by simpa [Tells] using told
  rfl

theorem append {a b : List (List Char)} (first : ReadsTo active d a e) (later : ReadsTo active e b final) :
    ReadsTo active d (a ++ b) final := by
  intro ls told
  rw [Tells, List.map_append] at told
  obtain ⟨front, back, rfl, told, toldBack⟩ := List.map_eq_append_iff.1 told
  rw [addAll_append (first front told)]
  exact later back toldBack

theorem cons {t : List Char} {ts : List (List Char)}
    (step : ∀ n, d.add active ⟨n, LineKind.of t, t⟩ = .ok e) (later : ReadsTo active e ts final) :
    ReadsTo active d (t :: ts) final := by
  intro ls told
  rw [Tells, List.map_cons] at told
  obtain ⟨⟨n, kind, text⟩, back, rfl, first, toldBack⟩ := List.map_eq_cons_iff.1 told
  obtain ⟨rfl, rfl⟩ : kind = LineKind.of t ∧ text = t := Prod.mk.inj first
  rw [ClassDraft.addAll, step n]
  exact later back toldBack

/-- A further line of one text. -/
theorem one {t : List Char} (step : ∀ n, d.add active ⟨n, LineKind.of t, t⟩ = .ok e) :
    ReadsTo active d [t] e :=
  cons step nil

end ReadsTo

/-! ### Annotations -/

theorem add_use {use : AnnotationUse} (h : use.Printable) (n : Nat) :
    d.add active ⟨n, LineKind.of (printUse use), printUse use⟩ = .ok (d.annotate use) := by
  have begins : beginsUse (printUse use) = true := by simpa using Annotated.beginsUse_printUse use []
  simp only [ClassDraft.add, kind_of_beginsUse begins, h.1]

/-- Annotations in front of the members are those of the class. -/
theorem readsTo_classUses (uses : List AnnotationUse) (h : ∀ use ∈ uses, use.Printable) :
    ReadsTo active ⟨c, none⟩ (uses.map printUse)
      ⟨{ c with annotations := c.annotations ++ uses }, none⟩ := by
  induction uses generalizing c with
  | nil => simpa using ReadsTo.nil
  | cons use uses ih =>
    have later := ih (c := { c with annotations := c.annotations ++ [use] }) fun u mem => h u (by simp [mem])
    simp only [List.append_assoc, List.singleton_append] at later
    exact .cons (add_use (h use (by simp))) later

theorem annotateLast_append (use : AnnotationUse) (ms : List Member) (m : Member) :
    annotateLast use (ms ++ [m]) = ms ++ [m.annotate use] := by
  induction ms with
  | nil => rfl
  | cons n ms ih => cases ms <;> simp_all [annotateLast]

/-- Annotations behind a member are those of the member. -/
theorem readsTo_memberUses {f : MemberKind → List Member} {kind : MemberKind} {ms : List Member} {m : Member}
    (fits : ∀ m, (Function.update f kind (ms ++ [m]) .superclass).length ≤ 1)
    (uses : List AnnotationUse) (h : ∀ use ∈ uses, use.Printable) :
    ReadsTo active ⟨c.withMembers (Function.update f kind (ms ++ [m])), some kind⟩ (uses.map printUse)
      ⟨c.withMembers (Function.update f kind
        (ms ++ [{ m with annotations := m.annotations ++ uses }])), some kind⟩ := by
  induction uses generalizing m with
  | nil => simpa using ReadsTo.nil
  | cons use uses ih =>
    have step (n : Nat) := @add_use active ⟨c.withMembers (Function.update f kind (ms ++ [m])), some kind⟩
      use (h use (by simp)) n
    have next : (⟨c.withMembers (Function.update f kind (ms ++ [m])), some kind⟩ : ClassDraft).annotate use =
        ⟨c.withMembers (Function.update f kind (ms ++ [m.annotate use])), some kind⟩ := by
      simp [ClassDraft.annotate, ClassDescription.updateMembers_withMembers c (fits m),
        annotateLast_append]
    have later := ih (m := m.annotate use) fun u mem => h u (by simp [mem])
    simp only [Member.annotate, List.append_assoc, List.singleton_append] at later
    exact .cons (fun n => by rw [step n, next]; rfl) later

/-! ### Members -/

/-- A member is filed under its kind with its annotations. -/
theorem readsTo_memberLines {f : MemberKind → List Member} {kind : MemberKind} {m : Member}
    (latest : Option MemberKind) (base : (f .superclass).length ≤ 1)
    (fits : ∀ m, (Function.update f kind (f kind ++ [m]) .superclass).length ≤ 1)
    (h : m.Printable c.name kind) (carried : active .constInfo = false → m.constant? = none) :
    ReadsTo active ⟨c.withMembers f, latest⟩ (ClassDescription.memberLines c.name m)
      ⟨c.withMembers (Function.update f kind (f kind ++ [m])), some kind⟩ := by
  obtain ⟨declaring, name, set, uses, detail⟩ := m
  obtain ⟨rfl, rfl, written, sound, -, printable⟩ := h
  have lone : (if active .constInfo then ⟨c.name, name, set.visible, [], detail⟩
      else (⟨c.name, name, set.visible, [], detail⟩ : Member).withoutConstant) =
        (⟨c.name, name, set, [], detail⟩ : Member) := by
    rw [show set.visible = set from written]
    split
    · rfl
    · rename_i left
      exact Member.withoutConstant_eq (carried (by simpa using left))
  have read := parseMember_formatMember (m := ⟨c.name, name, set, uses, detail⟩) sound .empty
  have kind := kind_formatMember .empty c.name ⟨c.name, name, set, uses, detail⟩
  have behind := @readsTo_memberUses active c f _ (f _) ⟨c.name, name, set, [], detail⟩ fits uses printable
  refine .cons (fun n => ?_) (by simpa using behind)
  simp only [ClassDraft.add, kind, ClassDescription.withMembers_name, read, lone]
  simp [ClassDescription.addMember, ClassDescription.updateMembers_withMembers c base, Member.kind]

/-- The members of a kind that were read when these kinds are done. -/
def doneMembers (c : ClassDescription) (done : List MemberKind) (kind : MemberKind) : List Member :=
  if kind ∈ done then c.members kind else []

theorem readsTo_members {f : MemberKind → List Member} (kind : MemberKind) (ms : List Member)
    {latest : Option MemberKind} (base : (f .superclass).length ≤ 1)
    (room : kind = .superclass → (f kind ++ ms).length ≤ 1)
    (h : ∀ m ∈ ms, m.Printable c.name kind)
    (carried : ∀ m ∈ ms, active .constInfo = false → m.constant? = none) :
    ∃ latest', ReadsTo active ⟨c.withMembers f, latest⟩ (ms.flatMap (ClassDescription.memberLines c.name))
      ⟨c.withMembers (Function.update f kind (f kind ++ ms)), latest'⟩ := by
  induction ms generalizing f latest with
  | nil => exact ⟨latest, by simpa using ReadsTo.nil⟩
  | cons m ms ih =>
    have fits (n : Member) : (Function.update f kind (f kind ++ [n]) .superclass).length ≤ 1 := by
      by_cases super : kind = .superclass
      · subst super
        have none : f .superclass = [] := by
          have := room rfl
          simp only [List.length_append, List.length_cons] at this
          exact List.length_eq_zero_iff.1 (by omega)
        simp [none]
      · rw [Function.update_of_ne (Ne.symm super)]
        exact base
    have first := readsTo_memberLines latest base fits (h m (by simp)) (carried m (by simp))
    obtain ⟨latest', later⟩ := ih (fits m)
      (by simpa using room) (fun n mem => h n (by simp [mem])) (fun n mem => carried n (by simp [mem]))
    refine ⟨latest', ?_⟩
    rw [List.flatMap_cons]
    refine first.append ?_
    simpa using later

/-- All members are read, kind by kind. -/
theorem readsTo_kinds (b : ClassDescription) (same : b.name = c.name) (kinds : List MemberKind)
    (done : List MemberKind) {latest : Option MemberKind} (fresh : ∀ kind ∈ kinds, kind ∉ done)
    (distinct : kinds.Nodup) (h : ∀ kind, ∀ m ∈ c.members kind, m.Printable c.name kind)
    (carried : ∀ kind, ∀ m ∈ c.members kind, active .constInfo = false → m.constant? = none) :
    ∃ latest', ReadsTo active ⟨b.withMembers (doneMembers c done), latest⟩
      (kinds.flatMap fun kind => (c.members kind).flatMap (ClassDescription.memberLines c.name))
      ⟨b.withMembers (doneMembers c (done ++ kinds)), latest'⟩ := by
  induction kinds generalizing done latest with
  | nil => exact ⟨latest, by simpa using ReadsTo.nil⟩
  | cons kind kinds ih =>
    have new : kind ∉ done := fresh kind (by simp)
    have none : doneMembers c done kind = [] := by simp [doneMembers, new]
    have base : (doneMembers c done .superclass).length ≤ 1 := by
      unfold doneMembers
      split
      · exact c.length_members_superclass
      · simp
    obtain ⟨middle, first⟩ := readsTo_members (c := b) kind
      (c.members kind) base (fun super => by subst super; simpa [none] using c.length_members_superclass)
      (by simpa [same] using h kind) (carried kind)
    have next : Function.update (doneMembers c done) kind (doneMembers c done kind ++ c.members kind) =
        doneMembers c (done ++ [kind]) := by
      funext k
      by_cases here : k = kind
      · subst here
        simp [doneMembers, new]
      · simp [doneMembers, here]
    obtain ⟨latest', later⟩ := ih (done ++ [kind])
      (fun k mem => by
        have apart : k ≠ kind := fun eq => (List.nodup_cons.1 distinct).1 (eq ▸ mem)
        simp [fresh k (by simp [mem]), apart])
      (List.nodup_cons.1 distinct).2
    refine ⟨latest', ?_⟩
    rw [next, same] at first
    rw [List.flatMap_cons]
    refine first.append ?_
    simpa using later

/-! ### Hidden names and the whole block -/

theorem readsTo_hiddenFields {names : Option (Ordered.Set String)} {latest : Option MemberKind}
    (fresh : c.hiddenFields = none) (h : ∀ set ∈ names, PrintableHidden set)
    (carried : active .listOfHiders = false → names = none) :
    ReadsTo active ⟨c, latest⟩ (ClassDescription.hiddenLine hiddenFieldsTag names)
      ⟨{ c with hiddenFields := names }, latest⟩ := by
  cases names with
  | none =>
    have same : { c with hiddenFields := none } = c := by rw [← fresh]
    rw [same]
    exact ReadsTo.nil
  | some set =>
    have on : active .listOfHiders := by
      cases state : active .listOfHiders with
      | true => rfl
      | false => exact absurd (carried state) (by simp)
    have read := parseHidden_formatHidden hiddenFieldsTag (by decide) (h set rfl).sound
    refine .one fun n => ?_
    simp [ClassDraft.add, formatHidden, kind_hiddenFieldsTag] at read ⊢
    simp [on, read]

theorem readsTo_hiddenClasses {names : Option (Ordered.Set String)} {latest : Option MemberKind}
    (fresh : c.hiddenClasses = none) (h : ∀ set ∈ names, PrintableHidden set)
    (carried : active .listOfHiders = false → names = none) :
    ReadsTo active ⟨c, latest⟩ (ClassDescription.hiddenLine hiddenClassesTag names)
      ⟨{ c with hiddenClasses := names }, latest⟩ := by
  cases names with
  | none =>
    have same : { c with hiddenClasses := none } = c := by rw [← fresh]
    rw [same]
    exact ReadsTo.nil
  | some set =>
    have on : active .listOfHiders := by
      cases state : active .listOfHiders with
      | true => rfl
      | false => exact absurd (carried state) (by simp)
    have read := parseHidden_formatHidden hiddenClassesTag (by decide) (h set rfl).sound
    refine .one fun n => ?_
    simp [ClassDraft.add, formatHidden, kind_hiddenClassesTag] at read ⊢
    simp [on, read]

end SignatureFile

/-- A class of which nothing is lost when these features are active. -/
structure ClassDescription.Carried (active : Feature → Bool) (c : ClassDescription) : Prop where
  constants : active .constInfo = false → ∀ m ∈ c.fields, m.constant? = none
  hidden : active .listOfHiders = false → c.hiddenFields = none ∧ c.hiddenClasses = none

/-- Only a field has a constant, and none is carried if constants are left out. -/
theorem ClassDescription.Carried.constant?_eq_none {active : Feature → Bool} {c : ClassDescription}
    (h : c.Carried active) {kind : MemberKind} {m : Member} (mem : m ∈ c.members kind) (listed : m.kind = kind)
    (left : active .constInfo = false) : m.constant? = none := by
  cases detail : m.detail with
  | field =>
    obtain rfl : MemberKind.field = kind := by rw [← listed, Member.kind, detail, Detail.kind]
    exact h.constants left m mem
  | superclass | superinterface | method | constructor | nested => simp [Member.constant?, detail]

namespace SignatureFile

/-- A printable class is read back from the lines of its block. -/
theorem addAll_bodyLines {active : Feature → Bool} {c : ClassDescription} (h : c.Printable)
    (carried : c.Carried active) :
    ∃ latest, ReadsTo active
      ⟨{ ClassDescription.named c.name c.modifiers with typeParameters := c.typeParameters }, none⟩
      c.bodyLines ⟨c, latest⟩ := by
  have constants (kind : MemberKind) : ∀ m ∈ c.members kind, active .constInfo = false → m.constant? = none :=
    fun m mem left => carried.constant?_eq_none mem (h.members kind m mem).kind left
  obtain ⟨name, set, parameters, superclass, interfaces, fields, methods, constructors, nested, uses,
    hiddenFields, hiddenClasses, moduleInfo⟩ := c
  obtain rfl : moduleInfo = none := h.noModule
  let c : ClassDescription := ⟨name, set, parameters, superclass, interfaces, fields, methods, constructors,
    nested, uses, hiddenFields, hiddenClasses, none⟩
  let b : ClassDescription := ⟨name, set, parameters, none, [], [], [], [], [], uses, none, none, none⟩
  obtain ⟨latest, members⟩ := readsTo_kinds (c := c) b rfl
    MemberKind.writeOrder [] (by simp) (by decide) h.members constants
  have all : doneMembers c ([] ++ MemberKind.writeOrder) = c.members := by
    funext kind
    have listed : kind ∈ MemberKind.writeOrder := by cases kind <;> decide
    simp [doneMembers, listed]
  have full : b.withMembers c.members = { c with hiddenFields := none, hiddenClasses := none } := by
    have apart : b.withMembers c.members =
        { c.withMembers c.members with hiddenFields := none, hiddenClasses := none } := rfl
    rw [apart, c.withMembers_members]
  rw [all, full] at members
  have own : ReadsTo active ⟨{ ClassDescription.named name set with typeParameters := parameters }, none⟩
      (uses.map printUse) ⟨b, none⟩ :=
    readsTo_classUses uses h.annotations
  have fieldNames : ReadsTo active ⟨{ c with hiddenFields := none, hiddenClasses := none }, latest⟩
      (ClassDescription.hiddenLine hiddenFieldsTag hiddenFields) ⟨{ c with hiddenClasses := none }, latest⟩ :=
    readsTo_hiddenFields rfl h.hiddenFields fun left => (carried.hidden left).1
  have classNames : ReadsTo active ⟨{ c with hiddenClasses := none }, latest⟩
      (ClassDescription.hiddenLine hiddenClassesTag hiddenClasses) ⟨c, latest⟩ :=
    readsTo_hiddenClasses rfl h.hiddenClasses fun left => (carried.hidden left).2
  exact ⟨latest, ((own.append members).append fieldNames).append classNames⟩

end SignatureFile
end ApiSurface
