import ApiSurface.Proofs.Legacy.Line
import ApiSurface.Proofs.SignatureFile.Accepted
import ApiSurface.Proofs.SignatureFile.Blocks

/-!
Which line of a class block gives what. The lines that are left of a block are cut at those of its members: what
stands in front of the first one is about the class, and what stands behind one is about its member. Main
statements: a block ends where the next one begins, and of the lines in it none is left out but blank ones and
the old line for no superclass (`gathered_of_gatherClass`); the cut loses no line (`cutAtMembers`); and a class that was
read has one member for every member line and one annotation for every annotation line, each in its place
(`readClass_sections`).
-/

namespace ApiSurface

open ApiSurface.Text ApiSurface.Line

namespace LegacyRule

/-- The rules of a format leave out the line for no superclass, and nothing else. -/
theorem eq_nullSuperLine_of_decodeAll {f : Format} (known : f ∈ Format.newestFirst) {className : String}
    {line : List Char} (none : decodeAll className f.rules line = .ok none) : line = Legacy.nullSuperLine.toList := by
  have once : ∀ f ∈ Format.newestFirst, nullSuper ∉ f.rules ∨ f.rules.head? = some nullSuper ∧
      nullSuper ∉ f.rules.tail := by decide
  rcases once f known with free | ⟨first, free⟩
  · exact absurd none (decodeAll_ne_none free)
  · obtain ⟨more, same⟩ := List.head?_eq_some_iff.1 first
    rw [same] at none free
    by_contra other
    rw [decodeAll, decode, if_neg other] at none
    exact decodeAll_ne_none free none

end LegacyRule

namespace SignatureFile

/-! ### The lines that are left -/

/-- Whether a line is the first one of a block. -/
def SourceLine.startsBlock : SourceLine → Bool
  | .text _ cs => LineKind.of cs = .classHeader ∨ LineKind.of cs = .moduleBlock
  | .undecodable => false

theorem startsBlock_eq_false {n : Nat} {cs : List Char}
    (inside : ¬(LineKind.of cs = .classHeader ∨ LineKind.of cs = .moduleBlock)) :
    (SourceLine.text n cs).startsBlock = false :=
  decide_eq_false inside

/-- The lines of a class block, up to where the next block begins. -/
def classBlock (lines : List SourceLine) : List SourceLine := lines.takeWhile (!·.startsBlock)

/-- What is left of a line in a block of this class, unless it is blank or says nothing today. -/
def survivor? (rules : List LegacyRule) (className : String) : SourceLine → Option BlockLine
  | .undecodable => none
  | .text n cs =>
    if allBlank cs then none
    else
      match LegacyRule.decodeAll className rules cs with
      | .ok (some text) => some ⟨n, LineKind.of cs, text⟩
      | .ok none | .error _ => none

/-- The lines that are left of a block of this class. -/
def survivors (rules : List LegacyRule) (className : String) (block : List SourceLine) : List BlockLine :=
  block.filterMap (survivor? rules className)

/-- What became of a line in a block of this class: it is blank, or it is the old line for no superclass, or it is
left, with the number and the kind that it has, and as it was if it is one with an annotation. -/
def Accounted (rules : List LegacyRule) (className : String) (line : SourceLine) : Prop :=
  ∃ n cs, line = .text n cs ∧ (allBlank cs ∨ cs = Legacy.nullSuperLine.toList ∨
    ∃ text, survivor? rules className line = some ⟨n, LineKind.of cs, text⟩ ∧
      (LineKind.of cs = .annotated → text = cs))

/-- These lines begin with a class block, of which this is left, and go on with the next block, if any. -/
structure Gathered (rules : List LegacyRule) (className : String) (lines behind : List SourceLine)
    (left : List BlockLine) : Prop where
  whole : lines = classBlock lines ++ behind
  next : AtBlock behind
  left : left = survivors rules className (classBlock lines)
  accounted : ∀ line ∈ classBlock lines, Accounted rules className line

/-- One more line of the block. -/
theorem Gathered.cons {rules : List LegacyRule} {className : String} {lines behind : List SourceLine}
    {left : List BlockLine} {line : SourceLine} (rest : Gathered rules className lines behind left)
    (inside : line.startsBlock = false) (accounted : Accounted rules className line) :
    Gathered rules className (line :: lines) behind ((survivor? rules className line).toList ++ left) := by
  have block : classBlock (line :: lines) = line :: classBlock lines := by simp [classBlock, inside]
  refine ⟨?_, rest.next, ?_, ?_⟩
  · rw [block, List.cons_append, ← rest.whole]
  · rw [block, rest.left, survivors, survivors]
    cases found : survivor? rules className line <;> simp [found]
  · rw [block]
    exact List.forall_mem_cons.2 ⟨accounted, rest.accounted⟩

/-- **The lines of a block.** If they can be gathered, then the block ends with the file or at the next block, and
every line in it is accounted for. -/
theorem gathered_of_gatherClass {f : Format} (known : f ∈ Format.newestFirst) {className : String}
    {lines behind : List SourceLine} {left : List BlockLine}
    (gathered : gatherClass f.rules className lines = (.ok left, behind)) :
    Gathered f.rules className lines behind left := by
  generalize given : (Except.ok left : Except ReadError (List BlockLine)) = result at gathered
  rw [← gathers_iff] at gathered
  induction gathered generalizing left with
  | ends =>
    cases given
    exact ⟨rfl, trivial, rfl, by simp [classBlock]⟩
  | undecodable | misspelled | lost => cases given
  | @next n cs rest starts =>
    cases given
    have first : (SourceLine.text n cs).startsBlock = true := decide_eq_true starts
    have none : classBlock (.text n cs :: rest) = [] := by simp [classBlock, first]
    exact ⟨by rw [none]; rfl, starts, by rw [none]; rfl, by simp [none]⟩
  | @blank n cs _ _ _ inside blank _ ih =>
    have gone : survivor? f.rules className (.text n cs) = none := by simp [survivor?, blank]
    simpa [gone] using (ih given).cons (startsBlock_eq_false inside) ⟨n, cs, rfl, .inl blank⟩
  | @dropped n cs _ _ _ inside filled decoded _ ih =>
    have gone : survivor? f.rules className (.text n cs) = none := by simp [survivor?, filled, decoded]
    have null := LegacyRule.eq_nullSuperLine_of_decodeAll known decoded
    simpa [gone] using (ih given).cons (startsBlock_eq_false inside) ⟨n, cs, rfl, .inr (.inl null)⟩
  | @kept n cs text _ _ _ inside filled decoded _ ih =>
    cases given
    have kept : survivor? f.rules className (.text n cs) = some ⟨n, LineKind.of cs, text⟩ := by
      simp [survivor?, filled, decoded]
    have same (kind : LineKind.of cs = .annotated) : text = cs :=
      Option.some.inj (Except.ok.inj (decoded.symm.trans (LegacyRule.decodeAll_annotated kind)))
    simpa [kept] using (ih rfl).cons (startsBlock_eq_false inside) ⟨n, cs, rfl, .inr (.inr ⟨text, kept, same⟩)⟩

/-! ### The cut -/

/-- Whether this is the line of a member. -/
def BlockLine.isMember (line : BlockLine) : Bool :=
  match line.kind with
  | .member _ => true
  | .classHeader | .annotated | .hiddenFields | .hiddenClasses | .moduleBlock | .unknown => false

/-- The line of a member, and the lines behind it that come before the next member. -/
structure Section where
  head : BlockLine
  tail : List BlockLine

/-- The lines that come before the first member. -/
def front (lines : List BlockLine) : List BlockLine := lines.takeWhile (!·.isMember)

/-- The sections of a block, one for each member line. -/
def sections : List BlockLine → List Section
  | [] => []
  | line :: more => if line.isMember then ⟨line, front more⟩ :: sections more else sections more

/-- These lines are cut right before each line of a member, and nowhere else. -/
structure CutAtMembers (lines front : List BlockLine) (sections : List Section) : Prop where
  whole : front ++ sections.flatMap (fun s => s.head :: s.tail) = lines
  front : ∀ line ∈ front, line.isMember = false
  heads : ∀ s ∈ sections, s.head.isMember = true
  tails : ∀ s ∈ sections, ∀ line ∈ s.tail, line.isMember = false

/-- The sections and what comes before them are all the lines, each of them once. -/
theorem cutAtMembers (lines : List BlockLine) : CutAtMembers lines (front lines) (sections lines) := by
  induction lines with
  | nil => exact ⟨rfl, by simp [front], by simp [sections], by simp [sections]⟩
  | cons line lines ih =>
    cases member : line.isMember with
    | false =>
      have later : sections (line :: lines) = sections lines := by simp [sections, member]
      have first : front (line :: lines) = line :: front lines := by simp [front, member]
      rw [later, first]
      exact ⟨congrArg (List.cons line) ih.whole, List.forall_mem_cons.2 ⟨member, ih.front⟩, ih.heads, ih.tails⟩
    | true =>
      have opened : sections (line :: lines) = ⟨line, front lines⟩ :: sections lines := by simp [sections, member]
      have none : front (line :: lines) = [] := by simp [front, member]
      rw [opened, none]
      exact ⟨congrArg (List.cons line) ih.whole, by simp, List.forall_mem_cons.2 ⟨member, ih.heads⟩,
        List.forall_mem_cons.2 ⟨ih.front, ih.tails⟩⟩

/-! ### What the lines give -/

variable {active : Feature → Bool} {d e : ClassDraft} {line : BlockLine} {lines : List BlockLine}

/-- The lines with annotations among these are those of these annotations, in order. -/
def GivesUses (lines : List BlockLine) (uses : List AnnotationUse) : Prop :=
  List.Forall₂ (fun line use => Annotated.ofLine line.text = .ok use) (lines.filter (·.kind = .annotated)) uses

/-- The member that was read from the first line of a section, with the annotations of the others. It has no constant
unless constants are active. -/
def Section.Gives (active : Feature → Bool) (className : String) (kind : MemberKind) (s : Section) (m : Member) : Prop :=
  ∃ read uses, parseMember kind className s.head.text = .ok read ∧ GivesUses s.tail uses ∧
    m = { (if active .constInfo then read else read.withoutConstant) with annotations := uses }

/-- What one line of a block does to the class. -/
theorem add_cases (added : d.add active line = .ok e) :
    (∃ use, line.kind = .annotated ∧ Annotated.ofLine line.text = .ok use ∧ e = d.annotate use) ∨
    (∃ kind read, line.kind = .member kind ∧ parseMember kind d.description.name line.text = .ok read ∧
      e = ⟨d.description.addMember (if active .constInfo then read else read.withoutConstant), some kind⟩) ∨
    ((line.kind = .hiddenFields ∨ line.kind = .hiddenClasses) ∧ e.latest = d.latest ∧
      e.description.name = d.description.name ∧ e.description.members = d.description.members ∧
      e.description.annotations = d.description.annotations) := by
  unfold ClassDraft.add at added
  cases kind : line.kind with
  | annotated =>
    simp only [kind] at added
    cases read : Annotated.ofLine line.text with
    | error fault =>
      rw [read] at added
      cases added
    | ok use =>
      rw [read] at added
      cases added
      exact .inl ⟨use, rfl, rfl, rfl⟩
  | member member =>
    simp only [kind] at added
    cases read : parseMember member d.description.name line.text with
    | error m =>
      rw [read] at added
      cases added
    | ok m =>
      rw [read] at added
      cases added
      exact .inr (.inl ⟨member, m, rfl, read, rfl⟩)
  | hiddenFields | hiddenClasses =>
    simp only [kind, Except.ok.injEq] at added
    refine .inr (.inr ⟨by simp, ?_⟩)
    subst added
    split <;> exact ⟨rfl, rfl, funext fun kind => by cases kind <;> rfl, rfl⟩
  | classHeader | moduleBlock | unknown =>
    simp only [kind] at added
    cases added

theorem name_annotate (d : ClassDraft) (use : AnnotationUse) :
    (d.annotate use).description.name = d.description.name := by
  unfold ClassDraft.annotate
  cases d.latest <;> simp

theorem name_of_add (added : d.add active line = .ok e) : e.description.name = d.description.name := by
  rcases add_cases added with ⟨use, -, -, rfl⟩ | ⟨kind, member, -, -, rfl⟩ | ⟨-, -, name, -⟩
  · exact name_annotate d use
  · exact ClassDescription.name_updateMembers _ _ _
  · exact name

/-- The name of the class comes from its first line only. -/
theorem name_of_addAll (read : d.addAll active lines = .ok e) : e.description.name = d.description.name := by
  induction lines generalizing d with
  | nil =>
    cases read
    rfl
  | cons line lines ih =>
    rw [ClassDraft.addAll] at read
    cases added : d.add active line with
    | error m =>
      rw [added] at read
      cases read
    | ok d' =>
      rw [added] at read
      rw [ih read, name_of_add added]

theorem length_annotateLast (use : AnnotationUse) (ms : List Member) :
    (annotateLast use ms).length = ms.length := by
  rcases List.eq_nil_or_concat' ms with rfl | ⟨ms, m, rfl⟩
  · rfl
  · simp [annotateLast_append]

/-- The members with these annotations put on the last one in turn. -/
def annotateEnd (uses : List AnnotationUse) (ms : List Member) : List Member :=
  uses.foldl (fun ms use => annotateLast use ms) ms

theorem annotateEnd_concat (uses : List AnnotationUse) (ms : List Member) (m : Member) :
    annotateEnd uses (ms ++ [m]) = ms ++ [{ m with annotations := m.annotations ++ uses }] := by
  induction uses generalizing m with
  | nil => simp [annotateEnd]
  | cons use uses ih =>
    calc annotateEnd (use :: uses) (ms ++ [m]) = annotateEnd uses (ms ++ [m.annotate use]) := by
          rw [← annotateLast_append]
          rfl
      _ = ms ++ [{ m with annotations := m.annotations ++ (use :: uses) }] := by
          rw [ih]
          simp [Member.annotate]

/-- An annotation is put on the last of the members that the latest one is among. -/
theorem members_annotate (d : ClassDraft) (use : AnnotationUse) (kind : MemberKind) :
    (d.annotate use).description.members kind =
      if d.latest = some kind then annotateLast use (d.description.members kind) else d.description.members kind := by
  unfold ClassDraft.annotate
  cases d.latest with
  | none => cases kind <;> rfl
  | some latest =>
    have few : latest = .superclass → (annotateLast use (d.description.members latest)).length ≤ 1 := by
      rintro rfl
      rw [length_annotateLast]
      exact d.description.length_members_superclass
    dsimp only
    rw [d.description.members_updateMembers few]
    by_cases same : kind = latest
    · simp [same]
    · simp [same, Ne.symm same]

/-- What is added for a member line has the kind of the line, and no annotations yet. -/
theorem shape_of_parseMember {kind : MemberKind} {className : String} {text : List Char} {read : Member}
    (active : Feature → Bool) (parsed : parseMember kind className text = .ok read) :
    (if active .constInfo then read else read.withoutConstant).kind = kind ∧
      (if active .constInfo then read else read.withoutConstant).annotations = [] := by
  have shape := readMember_of_parseMember parsed
  rw [← shape.kind, ← shape.bare]
  split
  · exact ⟨rfl, rfl⟩
  · exact ⟨read.kind_withoutConstant, read.annotations_withoutConstant⟩

/-- A class has one more superclass than before at most, and that only behind a line with one. -/
theorem length_superclass_of_add (added : d.add active line = .ok e) :
    (e.description.members .superclass).length ≤
      (d.description.members .superclass).length + (if line.kind = .member .superclass then 1 else 0) := by
  by_cases super : line.kind = .member .superclass
  · rw [if_pos super]
    exact e.description.length_members_superclass.trans (Nat.le_add_left 1 _)
  · rw [if_neg super, Nat.add_zero]
    rcases add_cases added with ⟨use, -, -, rfl⟩ | ⟨kind, read, isMember, parsed, rfl⟩ | ⟨-, -, -, members, -⟩
    · rw [members_annotate]
      split
      · exact (length_annotateLast use _).le
      · exact Nat.le_refl _
    · have other : kind ≠ .superclass := by
        rintro rfl
        exact super isMember
      obtain ⟨sameKind, -⟩ := shape_of_parseMember active parsed
      rw [ClassDescription.members_addMember fun same => absurd (sameKind.symm.trans same) other]
      simp [sameKind, other]
    · rw [members]

/-- What lines make of a class that was read so far: the annotations in front of the first member go where the
latest member is, or to the class, and every section gives one more member of its kind. -/
structure Filed (active : Feature → Bool) (d e : ClassDraft) (lines : List BlockLine) (uses : List AnnotationUse) :
    Prop where
  given : GivesUses (front lines) uses
  annotations : e.description.annotations = d.description.annotations ++ (if d.latest = none then uses else [])
  members : ∀ kind, ∃ ms, List.Forall₂ (Section.Gives active d.description.name kind)
      ((sections lines).filter (·.head.kind = .member kind)) ms ∧
    e.description.members kind = (if d.latest = some kind then annotateEnd uses (d.description.members kind)
      else d.description.members kind) ++ ms

namespace Filed

variable {uses : List AnnotationUse}

/-- No lines change nothing. -/
theorem nil (d : ClassDraft) : Filed active d d [] [] :=
  ⟨.nil, by simp, fun kind => ⟨[], .nil, by simp [annotateEnd]⟩⟩

/-- One more annotation, in front of all others. -/
theorem ofUse {use : AnnotationUse} (kind : line.kind = .annotated) (read : Annotated.ofLine line.text = .ok use)
    (rest : Filed active (d.annotate use) e lines uses) : Filed active d e (line :: lines) (use :: uses) := by
  have other : line.isMember = false := by simp [BlockLine.isMember, kind]
  have latest : (d.annotate use).latest = d.latest := by
    unfold ClassDraft.annotate
    cases d.latest <;> rfl
  refine ⟨?_, ?_, fun member => ?_⟩
  · have first : front (line :: lines) = line :: front lines := by simp [front, other]
    rw [GivesUses, first, List.filter_cons_of_pos (by simp [kind])]
    exact .cons read rest.given
  · rw [rest.annotations, latest]
    unfold ClassDraft.annotate
    cases d.latest with
    | none => simp
    | some latest => simp
  · obtain ⟨ms, gives, all⟩ := rest.members member
    have later : sections (line :: lines) = sections lines := by simp [sections, other]
    refine ⟨ms, by rwa [later, ← name_annotate d use], ?_⟩
    rw [all, latest, members_annotate]
    split <;> rfl

/-- One more member, which the annotations right behind it belong to. -/
theorem ofMember {kind : MemberKind} {read : Member} (isMember : line.kind = .member kind)
    (parsed : parseMember kind d.description.name line.text = .ok read)
    (few : kind = .superclass → d.description.members .superclass = [])
    (rest : Filed active
      ⟨d.description.addMember (if active .constInfo then read else read.withoutConstant), some kind⟩ e lines uses) :
    Filed active d e (line :: lines) [] := by
  obtain ⟨sameKind, bare⟩ := shape_of_parseMember active parsed
  set m := if active .constInfo then read else read.withoutConstant
  have opens : line.isMember = true := by simp [BlockLine.isMember, isMember]
  have added := ClassDescription.members_addMember (c := d.description) (m := m)
    fun super => few (sameKind.symm.trans super)
  have name : (d.description.addMember m).name = d.description.name := by simp [ClassDescription.addMember]
  refine ⟨?_, ?_, fun other => ?_⟩
  · have none : front (line :: lines) = [] := by simp [front, opens]
    rw [none]
    exact .nil
  · rw [rest.annotations]
    simp [ClassDescription.addMember]
  · obtain ⟨ms, gives, all⟩ := rest.members other
    have opened : sections (line :: lines) = ⟨line, front lines⟩ :: sections lines := by simp [sections, opens]
    rw [opened]
    by_cases same : other = kind
    · subst same
      refine ⟨{ m with annotations := uses } :: ms, ?_, ?_⟩
      · rw [List.filter_cons_of_pos (by simpa using isMember)]
        exact .cons ⟨read, uses, parsed, rest.given, rfl⟩ (name ▸ gives)
      · have own : [m].filter (·.kind = other) = [m] := by simp [sameKind]
        rw [all, if_pos rfl, added, own, annotateEnd_concat, bare]
        simp [annotateEnd]
    · refine ⟨ms, ?_, ?_⟩
      · rw [List.filter_cons_of_neg (by simpa [isMember] using Ne.symm same)]
        exact name ▸ gives
      · have none : [m].filter (·.kind = other) = [] := by simp [sameKind, Ne.symm same]
        rw [all, if_neg (by simpa using Ne.symm same), added, none]
        simp [annotateEnd]

/-- A line that is neither a member's nor an annotation's has no part in this. -/
theorem ofOther {d' : ClassDraft} (other : line.isMember = false) (noUse : line.kind ≠ .annotated)
    (latest : d'.latest = d.latest) (name : d'.description.name = d.description.name)
    (members : d'.description.members = d.description.members)
    (annotations : d'.description.annotations = d.description.annotations) (rest : Filed active d' e lines uses) :
    Filed active d e (line :: lines) uses := by
  have first : front (line :: lines) = line :: front lines := by simp [front, other]
  have later : sections (line :: lines) = sections lines := by simp [sections, other]
  refine ⟨?_, ?_, fun kind => ?_⟩
  · rw [GivesUses, first, List.filter_cons_of_neg (by simpa using noUse)]
    exact rest.given
  · rw [rest.annotations, annotations, latest]
  · rw [later, ← name, ← latest, ← members]
    exact rest.members kind

/-- A run: whatever the lines, so long as they and the class so far have one superclass at most. -/
theorem of_addAll (few : (d.description.members .superclass).length +
      lines.countP (·.kind = .member .superclass) ≤ 1)
    (read : d.addAll active lines = .ok e) : ∃ uses, Filed active d e lines uses := by
  induction lines generalizing d with
  | nil =>
    cases read
    exact ⟨[], .nil _⟩
  | cons line lines ih =>
    rw [ClassDraft.addAll] at read
    cases added : d.add active line with
    | error m =>
      rw [added] at read
      cases read
    | ok d' =>
      rw [added] at read
      have one := length_superclass_of_add added
      simp only [List.countP_cons, decide_eq_true_eq] at few
      obtain ⟨uses, rest⟩ := ih (by omega) read
      rcases add_cases added with ⟨use, kind, parsed, rfl⟩ | ⟨kind, member, isMember, parsed, rfl⟩ |
        ⟨hidden, latest, name, members, annotations⟩
      · exact ⟨_, rest.ofUse kind parsed⟩
      · refine ⟨_, rest.ofMember isMember parsed ?_⟩
        rintro rfl
        rw [if_pos isMember] at few
        exact List.length_eq_zero_iff.1 (by omega)
      · have other : line.isMember = false ∧ line.kind ≠ .annotated := by
          rcases hidden with kind | kind <;> simp [BlockLine.isMember, kind]
        exact ⟨uses, rest.ofOther other.1 other.2 latest name members annotations⟩

end Filed

/-- **Nothing lost.** A class block that was read ends with the file or at the next block, and each line in it is
accounted for. Cut what is left of it at the members' lines: the annotation lines ahead of the first cut are, one by
one and in order, the annotations of the class, and the sections are the members, those of each kind in order, each with
the annotations of its section. -/
theorem readClass_sections {f : Format} (known : f ∈ Format.newestFirst) {n : Nat} {cs : List Char}
    {rest behind : List SourceLine} {c : ClassDescription}
    (one : (survivors f.rules c.name (classBlock rest)).countP (·.kind = .member .superclass) ≤ 1)
    (read : readClass f active n cs rest = (.ok c, behind)) :
    (rest = classBlock rest ++ behind ∧ AtBlock behind ∧
      ∀ line ∈ classBlock rest, Accounted f.rules c.name line) ∧
    ∃ ahead parts, CutAtMembers (survivors f.rules c.name (classBlock rest)) ahead parts ∧
      GivesUses ahead c.annotations ∧
      ∀ kind, List.Forall₂ (Section.Gives active c.name kind) (parts.filter (·.head.kind = .member kind))
        (c.members kind) := by
  obtain ⟨header, lines, d, -, gathered, added, rfl⟩ := exists_of_readClass read
  have name : d.description.name = header.name := name_of_addAll added
  obtain ⟨whole, next, rfl, accounted⟩ := gathered_of_gatherClass known gathered
  rw [name] at one ⊢
  obtain ⟨uses, filed⟩ := Filed.of_addAll
    (by simpa [ClassDescription.members, ClassDescription.named] using one) added
  refine ⟨⟨whole, next, accounted⟩, _, _, cutAtMembers _, ?_, fun kind => ?_⟩
  · rw [filed.annotations]
    exact filed.given
  · obtain ⟨ms, gives, all⟩ := filed.members kind
    have same : d.description.members kind = ms := by
      rw [all]
      cases kind <;> rfl
    rw [same]
    exact gives

/-- The lines of an old class block behind its first one, and the first line of the next. Between a field and its
annotation there are hidden fields, which the format does not have, and a blank line. -/
def markedLines : List SourceLine :=
  numbered 2 (["anno 0 a.Tag()", "SUPR null", "FLD int count", "hfds inner", "  ", "anno 0 a.Use()", "METH void run()",
    "FLD int size", "CLSS a.C"].map String.toList)

/-- The class of that block. -/
def markedClass : ClassDescription :=
  { ClassDescription.named "a.B" .none with
    fields := [(Member.field "a.B" "count" .none "int" none).annotate ⟨0, "a.Use", [], none⟩,
      .field "a.B" "size" .none "int" none]
    methods := [.method "a.B" "run" .none "void" ""]
    annotations := [⟨0, "a.Tag", [], none⟩] }

/-- The field has its annotation, although two other lines stand between them, and the class has its own. -/
theorem readClass_sections_markedLines :
    (survivors Format.v21.rules "a.B" (classBlock markedLines)).countP (·.kind = .member .superclass) ≤ 1 ∧
    readClass .v21 Format.v21.supports 1 "CLSS a.B".toList markedLines =
      (.ok markedClass, numbered 10 ["CLSS a.C".toList]) ∧
    ∃ ahead parts, CutAtMembers (survivors Format.v21.rules "a.B" (classBlock markedLines)) ahead parts ∧
      GivesUses ahead [⟨0, "a.Tag", [], none⟩] ∧
      List.Forall₂ (Section.Gives Format.v21.supports "a.B" .field) (parts.filter (·.head.kind = .member .field))
        markedClass.fields := by
  have one : (survivors Format.v21.rules "a.B" (classBlock markedLines)).countP (·.kind = .member .superclass) ≤ 1 := by
    decide +kernel
  have read : readClass .v21 Format.v21.supports 1 "CLSS a.B".toList markedLines =
      (.ok markedClass, numbered 10 ["CLSS a.C".toList]) := by rfl
  obtain ⟨-, ahead, parts, cut, given, members⟩ := readClass_sections (by decide) one read
  exact ⟨one, read, ahead, parts, cut, given, members .field⟩

end SignatureFile
end ApiSurface
