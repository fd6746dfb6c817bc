import ApiSurface.Proofs.Line.Field
import ApiSurface.Proofs.SignatureFile.Bodies

/-!
Features that the header of a file says were left out. What is in the file of such a feature is read like everything
else and then dropped. Main statements: what one line of a class adds is what it adds otherwise, without what was
left out (`add_without`), so are classes and whole bodies (`class?_without`, `given_without`); a line gives the same
whatever it says of what was left out (`read?_of_saysNothing`, `read?_of_sameField`), and so do bodies that are alike
up to that (`AlikeBodies.given_eq`); together, what marks in a header do to a file (`readAll_marked`).
-/

namespace ApiSurface

open ApiSurface.Text ApiSurface.SignatureFile

/-! ### What stays of a description -/

/-- The member without its constant, if constants were left out. -/
def Member.without (absent : List Feature) (m : Member) : Member :=
  if .constInfo ∈ absent then m.withoutConstant else m

namespace ClassDescription

/-- The class without constants and hidden names, as far as these were left out. -/
def without (absent : List Feature) (c : ClassDescription) : ClassDescription :=
  { c with
    fields := c.fields.map (Member.without absent)
    hiddenFields := if .listOfHiders ∈ absent then none else c.hiddenFields
    hiddenClasses := if .listOfHiders ∈ absent then none else c.hiddenClasses }

/-- Classes and modules without what was left out. -/
def allWithout (absent : List Feature) (cs : List ClassDescription) : List ClassDescription :=
  (cs.filter fun c => !(c.isModule ∧ .moduleInfo ∈ absent)).map (without absent)

end ClassDescription

/-- What a file of this format carries if these features were left out. -/
def Format.carries (f : Format) (absent : List Feature) (feature : Feature) : Bool :=
  f.supports feature && !absent.contains feature

namespace SignatureFile

variable {f : Format} {active : Feature → Bool} {absent : List Feature} {h h' : FileHeader} {d e : ClassDraft}
  {line first : List Char} {a b block ls : List (List Char)} {className : String}

/-! ### Lines of a class -/

theorem Member.kind_without (m : Member) : (m.without absent).kind = m.kind := by
  unfold Member.without
  split <;> simp

/-- Only fields have constants. -/
theorem Member.without_of_kind {m : Member} (other : m.kind ≠ .field) : m.without absent = m := by
  unfold Member.without
  split
  · obtain ⟨declaring, name, set, uses, detail⟩ := m
    cases detail with
    | field type constant => exact absurd rfl other
    | superclass | superinterface | nested | method | constructor => rfl
  · rfl

theorem Member.without_annotate (m : Member) (use : AnnotationUse) :
    (m.annotate use).without absent = (m.without absent).annotate use := by
  unfold Member.without
  split
  · obtain ⟨declaring, name, set, uses, detail⟩ := m
    cases detail <;> rfl
  · rfl

/-- A member loses its constant once. -/
theorem Member.without_constant (m : Member) :
    (if active .constInfo then m else m.withoutConstant).without absent =
      if active .constInfo && !absent.contains .constInfo then m else m.withoutConstant := by
  have once : m.withoutConstant.withoutConstant = m.withoutConstant := by
    obtain ⟨declaring, name, set, uses, detail⟩ := m
    cases detail <;> rfl
  unfold Member.without
  by_cases on : active .constInfo <;> by_cases gone : .constInfo ∈ absent <;> simp [once, on, gone]

theorem map_without_annotateLast (use : AnnotationUse) (ms : List Member) :
    (annotateLast use ms).map (Member.without absent) = annotateLast use (ms.map (Member.without absent)) := by
  rcases List.eq_nil_or_concat' ms with rfl | ⟨front, m, rfl⟩
  · rfl
  · simp [annotateLast_append, Member.without_annotate]

/-- The draft without what was left out. -/
def ClassDraft.without (absent : List Feature) (d : ClassDraft) : ClassDraft :=
  { d with description := d.description.without absent }

theorem without_addMember (c : ClassDescription) (m : Member) :
    (c.addMember m).without absent = (c.without absent).addMember (m.without absent) := by
  unfold ClassDescription.addMember
  rw [Member.kind_without]
  cases kind : m.kind with
  | field => simp [ClassDescription.updateMembers, ClassDescription.without]
  | superclass | superinterface | method | constructor | nested =>
    rw [Member.without_of_kind (by simp [kind])]
    rfl

theorem without_annotate (d : ClassDraft) (use : AnnotationUse) :
    (d.annotate use).without absent = (d.without absent).annotate use := by
  obtain ⟨c, latest⟩ := d
  cases latest with
  | none => rfl
  | some kind =>
    cases kind with
    | field =>
      simp [ClassDraft.annotate, ClassDraft.without, ClassDescription.updateMembers, ClassDescription.without,
        map_without_annotateLast]
    | superclass | superinterface | method | constructor | nested => rfl

/-- **One line.** A line adds to a class what it adds where nothing was left out, without what was. -/
theorem add_without (absent : List Feature) (d : ClassDraft) (line : BlockLine) :
    (d.without absent).add (fun feature => active feature && !absent.contains feature) line =
      (d.add active line).map (ClassDraft.without absent) := by
  have name : (d.without absent).description.name = d.description.name := rfl
  unfold ClassDraft.add
  cases line.kind with
  | annotated =>
    dsimp only
    cases Annotated.ofLine line.text with
    | error fault => rfl
    | ok use =>
      dsimp only
      rw [map_ok, without_annotate]
  | member kind =>
    dsimp only
    rw [name]
    cases Line.parseMember kind d.description.name line.text with
    | error m => rfl
    | ok m =>
      dsimp only
      rw [map_ok, ← Member.without_constant]
      refine congrArg Except.ok ?_
      exact congrArg (ClassDraft.mk · (some kind)) (without_addMember _ _).symm
  | hiddenFields | hiddenClasses =>
    dsimp only
    rw [map_ok]
    refine congrArg Except.ok ?_
    by_cases on : active .listOfHiders <;> by_cases gone : .listOfHiders ∈ absent <;>
      simp [ClassDraft.without, ClassDescription.without, on, gone]
  | classHeader | moduleBlock | unknown => rfl

theorem read?_without (absent : List Feature) (d : ClassDraft) (line : List Char) :
    (d.without absent).read? f (fun feature => active feature && !absent.contains feature) line =
      (d.read? f active line).map (ClassDraft.without absent) := by
  have name : (d.without absent).description.name = d.description.name := rfl
  have optional {x : Except Malformed ClassDraft} :
      (x.map (ClassDraft.without absent)).toOption = x.toOption.map (ClassDraft.without absent) := by
    cases x <;> rfl
  unfold ClassDraft.read?
  rw [name]
  by_cases blank : allBlank line
  · rw [if_pos blank, if_pos blank]
    rfl
  · rw [if_neg blank, if_neg blank]
    cases LegacyRule.decodeAll d.description.name f.rules line with
    | error m => rfl
    | ok text =>
      cases text with
      | none => rfl
      | some text =>
        dsimp only
        rw [add_without, optional]

theorem foldlM_without (f : Format) (active : Feature → Bool) (absent : List Feature) (d : ClassDraft)
    (block : List (List Char)) :
    block.foldlM (ClassDraft.read? f fun feature => active feature && !absent.contains feature) (d.without absent) =
      (block.foldlM (ClassDraft.read? f active) d).map (ClassDraft.without absent) := by
  induction block generalizing d with
  | nil => rfl
  | cons line block ih =>
    rw [List.foldlM_cons, List.foldlM_cons, read?_without]
    cases d.read? f active line with
    | none => rfl
    | some e => exact ih e

/-- **One class.** The lines of a class give the class without what was left out. -/
theorem class?_without (f : Format) (active : Feature → Bool) (absent : List Feature) (first : List Char)
    (block : List (List Char)) :
    class? f (fun feature => active feature && !absent.contains feature) first block =
      (class? f active first block).map (ClassDescription.without absent) := by
  have start (header : ClassHeader) : (ClassDraft.start header).without absent = ClassDraft.start header := by
    simp [ClassDraft.without, ClassDraft.start, ClassDescription.without, ClassDescription.named]
  unfold class?
  cases (Line.parseClassHeader first).toOption with
  | none => rfl
  | some header =>
    have run := foldlM_without f active absent (.start header) block
    rw [start] at run
    rw [Option.bind_some, Option.bind_some, run, Option.map_map, Option.map_map]
    rfl

/-! ### Bodies -/

theorem isModule_of_class? {c : ClassDescription} (inside : ∀ line ∈ block, ¬BeginsBlock line)
    (read : class? f active first block = some c) : c.isModule = false := by
  obtain ⟨same, -⟩ := readClass_block f active first inside (show AtBlock [] from trivial) 1 2
  rw [read] at same
  cases found : readClass f active 1 first (numbered 2 block ++ []) with
  | mk result rest =>
    rw [found] at same
    cases result with
    | error e => cases same
    | ok c' =>
      obtain rfl : c' = c := Option.some.inj same
      have shape : c'.FromLines active False := (of_readClass nofun found).1
      rw [ClassDescription.isModule, shape.noModule]
      rfl

/-- **One body.** A body gives what it gives where nothing was left out, without what was. -/
theorem given_without (isBody : IsBody ls) (features : (atLines f h' []).hasFeature =
      fun feature => (atLines f h []).hasFeature feature && !absent.contains feature) :
    given f h' ls = (given f h ls).map (ClassDescription.allWithout absent) := by
  induction isBody with
  | nil => rfl
  | blank blank rest ih => rw [given_blank blank, given_blank blank, ih]
  | @module first body ls m module rest ih =>
    have same : (ClassDescription.ofModule m).without absent = .ofModule m := by
      simp [ClassDescription.without, ClassDescription.ofModule, ClassDescription.named]
    have isModule : (ClassDescription.ofModule m).isModule := rfl
    rw [given_module module, given_module module, features, ih]
    cases given f h ls <;> by_cases on : (atLines f h []).hasFeature .moduleInfo <;>
      by_cases gone : .moduleInfo ∈ absent <;> simp [ClassDescription.allWithout, on, gone, isModule, same]
  | @«class» first block ls kind inside start rest ih =>
    rw [given_class kind inside start, given_class kind inside start, features, class?_without, ih]
    cases read : class? f (atLines f h []).hasFeature first block with
    | none => rfl
    | some c =>
      have noModule := isModule_of_class? inside read
      cases given f h ls <;> simp [ClassDescription.allWithout, noModule]

/-! ### Lines that differ in what was left out -/

/-- A line of a class that says nothing where these features are active: it is blank or one of hidden names. -/
def SaysNothing (active : Feature → Bool) (line : List Char) : Prop :=
  allBlank line ∨ active .listOfHiders = false ∧
    (LineKind.of line = .hiddenFields ∨ LineKind.of line = .hiddenClasses)

/-- Lines of fields that declare the same in the spelling of today, whatever their constants are. -/
structure SameField (rules : List LegacyRule) (className : String) (line line' : List Char) : Prop where
  kind : LineKind.of line = .member .field
  kind' : LineKind.of line' = .member .field
  declaration : ∃ text text', LegacyRule.decodeAll className rules line = .ok (some text) ∧
    LegacyRule.decodeAll className rules line' = .ok (some text') ∧
    Line.beforeConstant text = Line.beforeConstant text'

/-- Lines of the block of a class that differ in what is left out only: constants of fields, and hidden names. -/
inductive AlikeLines (f : Format) (active : Feature → Bool) (className : String) :
    List (List Char) → List (List Char) → Prop
  | nil : AlikeLines f active className [] []
  | same {line : List Char} {a b : List (List Char)} (inside : ¬BeginsBlock line)
    (rest : AlikeLines f active className a b) : AlikeLines f active className (line :: a) (line :: b)
  | field {line line' : List Char} {a b : List (List Char)} (off : active .constInfo = false)
    (same : SameField f.rules className line line') (rest : AlikeLines f active className a b) :
    AlikeLines f active className (line :: a) (line' :: b)
  | left {line : List Char} {a b : List (List Char)} (nothing : SaysNothing active line)
    (rest : AlikeLines f active className a b) : AlikeLines f active className (line :: a) b
  | right {line : List Char} {a b : List (List Char)} (nothing : SaysNothing active line)
    (rest : AlikeLines f active className a b) : AlikeLines f active className a (line :: b)

/-- Bodies that differ in what is left out only: lines of their classes, and whole modules. -/
inductive AlikeBodies (f : Format) (active : Feature → Bool) : List (List Char) → List (List Char) → Prop
  | nil : AlikeBodies f active [] []
  | blankLeft {line : List Char} {a b : List (List Char)} (blank : allBlank line) (rest : AlikeBodies f active a b) :
    AlikeBodies f active (line :: a) b
  | blankRight {line : List Char} {a b : List (List Char)} (blank : allBlank line) (rest : AlikeBodies f active a b) :
    AlikeBodies f active a (line :: b)
  | class {first : List Char} {block block' a b : List (List Char)} {header : ClassHeader}
    (kind : LineKind.of first = .classHeader) (parsed : Line.parseClassHeader first = .ok header)
    (alike : AlikeLines f active header.name block block') (start : StartsAtBlock a) (start' : StartsAtBlock b)
    (rest : AlikeBodies f active a b) : AlikeBodies f active (first :: (block ++ a)) (first :: (block' ++ b))
  | module {first : List Char} {body a b : List (List Char)} {m : ModuleDescription} (module : IsModule first body m)
    (rest : AlikeBodies f active a b) : AlikeBodies f active (first :: (body ++ a)) (first :: (body ++ b))
  | moduleLeft {first : List Char} {body a b : List (List Char)} {m : ModuleDescription}
    (off : active .moduleInfo = false) (module : IsModule first body m) (rest : AlikeBodies f active a b) :
    AlikeBodies f active (first :: (body ++ a)) b
  | moduleRight {first : List Char} {body a b : List (List Char)} {m : ModuleDescription}
    (off : active .moduleInfo = false) (module : IsModule first body m) (rest : AlikeBodies f active a b) :
    AlikeBodies f active a (first :: (body ++ b))

theorem SaysNothing.inside (nothing : SaysNothing active line) : ¬BeginsBlock line := by
  unfold BeginsBlock
  rcases nothing with blank | ⟨-, kind | kind⟩
  · simp [kind_of_allBlank blank]
  · simp [kind]
  · simp [kind]

theorem read?_of_saysNothing (nothing : SaysNothing active line) : d.read? f active line = some d := by
  unfold ClassDraft.read?
  rcases nothing with blank | ⟨off, kind⟩
  · rw [if_pos blank]
  · have filled : allBlank line = false := by
      apply allBlank_eq_false
      rcases kind with kind | kind <;> rw [kind] <;> decide
    have untouched : LegacyRule.Untouched (LineKind.of line) ∧ LineKind.of line ≠ .member .superclass := by
      rcases kind with kind | kind <;> rw [kind] <;> refine ⟨⟨?_, ?_, ?_⟩, ?_⟩ <;> decide
    rw [if_neg (by simp [filled]), LegacyRule.decodeAll_untouched untouched.1 untouched.2]
    rcases kind with kind | kind <;> simp [ClassDraft.add, kind, off, Except.toOption]

theorem read?_of_sameField {line' : List Char} (off : active .constInfo = false)
    (same : SameField f.rules d.description.name line line') : d.read? f active line = d.read? f active line' := by
  obtain ⟨kind, kind', text, text', spelled, spelled', declaration⟩ := same
  have filled : allBlank line = false := allBlank_eq_false (by simp [kind])
  have filled' : allBlank line' = false := allBlank_eq_false (by simp [kind'])
  -- a line gives the draft that the other one gives
  have one {text text' : List Char} {e : ClassDraft} (same : Line.beforeConstant text = Line.beforeConstant text')
      (read : d.add active ⟨0, .member .field, text⟩ = .ok e) :
      d.add active ⟨0, .member .field, text'⟩ = .ok e := by
    unfold ClassDraft.add at read ⊢
    dsimp only at read ⊢
    cases parsed : Line.parseMember .field d.description.name text with
    | error m =>
      rw [parsed] at read
      cases read
    | ok m =>
      obtain ⟨n, parsed', bare⟩ := Line.exists_of_beforeConstant same parsed
      rw [parsed] at read
      rw [parsed', ← read]
      simp [off, bare]
  unfold ClassDraft.read?
  rw [if_neg (by simp [filled]), if_neg (by simp [filled']), spelled, spelled', kind, kind']
  exact toOption_eq_iff.2 fun e => ⟨one declaration, one declaration.symm⟩

theorem AlikeLines.inside (alike : AlikeLines f active className a b) :
    (∀ line ∈ a, ¬BeginsBlock line) ∧ ∀ line ∈ b, ¬BeginsBlock line := by
  have ofField {line : List Char} (kind : LineKind.of line = .member .field) : ¬BeginsBlock line := by
    simp [BeginsBlock, kind]
  induction alike with
  | nil => simp
  | same inside rest ih =>
    exact ⟨List.forall_mem_cons.2 ⟨inside, ih.1⟩, List.forall_mem_cons.2 ⟨inside, ih.2⟩⟩
  | field off same rest ih =>
    exact ⟨List.forall_mem_cons.2 ⟨ofField same.kind, ih.1⟩, List.forall_mem_cons.2 ⟨ofField same.kind', ih.2⟩⟩
  | left nothing rest ih => exact ⟨List.forall_mem_cons.2 ⟨nothing.inside, ih.1⟩, ih.2⟩
  | right nothing rest ih => exact ⟨ih.1, List.forall_mem_cons.2 ⟨nothing.inside, ih.2⟩⟩

/-- Lines that are alike make the same of a class. -/
theorem AlikeLines.foldlM_eq (alike : AlikeLines f active className a b) (name : d.description.name = className) :
    a.foldlM (ClassDraft.read? f active) d = b.foldlM (ClassDraft.read? f active) d := by
  induction alike generalizing d with
  | nil => rfl
  | @same line a b inside rest ih =>
    rw [List.foldlM_cons, List.foldlM_cons]
    cases read : d.read? f active line with
    | none => rfl
    | some e => exact ih ((name_of_read? read).trans name)
  | @field line line' a b off same rest ih =>
    have both : SameField f.rules d.description.name line line' := name ▸ same
    rw [List.foldlM_cons, List.foldlM_cons, read?_of_sameField off both]
    cases read : d.read? f active line' with
    | none => rfl
    | some e => exact ih ((name_of_read? read).trans name)
  | left nothing rest ih =>
    rw [List.foldlM_cons, read?_of_saysNothing nothing]
    exact ih name
  | right nothing rest ih =>
    rw [List.foldlM_cons, read?_of_saysNothing nothing]
    exact ih name

/-- **Two bodies.** Bodies that are alike give the same. -/
theorem AlikeBodies.given_eq (alike : AlikeBodies f (atLines f h []).hasFeature a b) :
    given f h a = given f h b := by
  induction alike with
  | nil => rfl
  | blankLeft blank rest ih => rw [given_blank blank, ih]
  | blankRight blank rest ih => rw [given_blank blank, ih]
  | @«class» first block block' a b header kind parsed alike start start' rest ih =>
    have same : class? f (atLines f h []).hasFeature first block =
        class? f (atLines f h []).hasFeature first block' := by
      have run := alike.foldlM_eq (d := .start header) rfl
      rw [class?, class?, parsed]
      exact congrArg (Option.map (·.description)) run
    rw [given_class kind alike.inside.1 start, given_class kind alike.inside.2 start', same, ih]
  | module module rest ih => rw [given_module module, given_module module, ih]
  | moduleLeft off module rest ih => rw [given_module module, if_neg (by simp [off]), ih]
  | moduleRight off module rest ih => rw [given_module module, if_neg (by simp [off]), ih]

/-! ### Headers -/

/-- The feature that a line of a header marks as left out. -/
def mark? (line : List Char) : Option Feature := Feature.ofAbsenceMarker? (trimEnd line)

/-- A header with marks for these features, among the lines of another one that has none. -/
structure AddsMarks (absent : List Feature) (header marked : List (List Char)) : Prop where
  lines : ∀ line ∈ marked, IsHeaderLine line
  others : header = marked.filter fun line => (mark? line).isNone
  marks : ∀ feature, feature ∈ absent ↔ ∃ line ∈ marked, mark? line = some feature

/-- The lines of a text: a banner, a header, and a body, where the header is over. -/
structure IsFile (cs banner : List Char) (header body : List (List Char)) : Prop where
  lines : lineTexts cs = banner :: (header ++ body)
  ended : ∀ line ∈ body.head?, ¬IsHeaderLine line

/-- What the lines of a header say. -/
def headerOf (header : List (List Char)) : FileHeader := header.foldl hear .blank

theorem mark?_of_head (other : line.head? ≠ some '#') : mark? line = none := by
  obtain ⟨tail, whole, -⟩ := exists_eq_trimEnd_append line
  have noLead : afterLead? ['#'] (trimEnd line) = none := by
    refine isPrefixOf?_eq_none_iff.2 ?_
    rintro ⟨rest, same⟩
    apply other
    rw [whole, ← same]
    rfl
  rw [mark?, Feature.ofAbsenceMarker?, noLead]
  rfl

/-- A line of a header marks what it adds to the features that were left out. -/
theorem absent_of_headerLine? (said : headerLine? h line = some h') :
    h'.absent = (mark? line).toList ++ h.absent := by
  unfold headerLine? at said
  split at said
  · rename_i version isVersion
    obtain rfl := afterLead?_eq_some_iff.1 isVersion
    cases said
    have other : (versionLead ++ version).head? ≠ some '#' := by
      intro same
      exact absurd (Option.some.inj same) (by decide)
    rw [mark?_of_head other]
    rfl
  · split at said
    · rename_i feature isMark
      cases said
      rw [mark?, isMark]
      rfl
    · rename_i noMark
      rw [mark?, noMark]
      split at said
      · cases said
        rfl
      · split at said <;> cases said
        rfl

theorem mem_absent_foldl (lines : ∀ line ∈ ls, IsHeaderLine line) (h : FileHeader) (feature : Feature) :
    feature ∈ (ls.foldl hear h).absent ↔ feature ∈ h.absent ∨ ∃ line ∈ ls, mark? line = some feature := by
  induction ls generalizing h with
  | nil => simp
  | cons line ls ih =>
    obtain ⟨-, h', said⟩ := headerLine?_of_isHeaderLine (lines line (by simp)) h
    have heard : hear h line = h' := by simp [hear, said]
    rw [List.foldl_cons, ih fun l mem => lines l (by simp [mem]), heard, absent_of_headerLine? said]
    simp only [List.mem_append, Option.mem_toList, List.mem_cons, exists_eq_or_imp]
    tauto

/-- What a header marks as left out. -/
theorem mem_absent_headerOf (lines : ∀ line ∈ ls, IsHeaderLine line) (feature : Feature) :
    feature ∈ (headerOf ls).absent ↔ ∃ line ∈ ls, mark? line = some feature := by
  rw [headerOf, mem_absent_foldl lines]
  simp [FileHeader.blank]

/-- A line that no header has ends the header. -/
theorem headerLine?_eq_none (other : ¬IsHeaderLine line) (h : FileHeader) : headerLine? h line = none := by
  have noVersion : afterLead? versionLead line = none :=
    isPrefixOf?_eq_none_iff.2 fun version => other (.inl version)
  have noMark : line.head? ≠ some '#' := fun mark => other (.inr mark)
  have noFeature : Feature.ofAbsenceMarker? (trimEnd line) = none := mark?_of_head noMark
  have noCopyright : afterLead? copyrightLead line = none := by
    refine isPrefixOf?_eq_none_iff.2 ?_
    rintro ⟨text, rfl⟩
    exact noMark rfl
  rw [headerLine?, noVersion, noFeature, noCopyright]
  exact if_neg noMark

/-! ### Files -/

variable {cs banner : List Char} {header marked body : List (List Char)}

/-- What a file gives is what its body gives behind its header, if the banner is that of the format. -/
theorem toOption_readAll (file : IsFile cs banner header body) (lines : ∀ line ∈ header, IsHeaderLine line) :
    (Reader.ofFormat f (ofText cs)).readAll.1.toOption =
      if String.ofList (trimEnd banner) = f.banner then given f (headerOf header) body else none := by
  have whole : ofText cs = .text 1 banner :: (numbered 2 header ++ numbered (2 + header.length) body) := by
    rw [ofText_eq_numbered, file.lines, numbered_cons, numbered_append]
  by_cases known : String.ofList (trimEnd banner) = f.banner
  · -- the header ends at the body, or at its first line if this is blank
    obtain ⟨n, rest, few, ended, same⟩ : ∃ n rest, rest.length ≤ body.length ∧
        readHeaderLines (headerOf header) (numbered (2 + header.length) body) =
          (.ok (), headerOf header, numbered n rest) ∧
        given f (headerOf header) body = given f (headerOf header) rest := by
      cases body with
      | nil => exact ⟨0, [], Nat.le_refl _, rfl, rfl⟩
      | cons line rest =>
        rw [numbered_cons, readHeaderLines]
        by_cases blank : allBlank line
        · exact ⟨_, rest, by simp, by rw [if_pos blank], given_blank blank⟩
        · refine ⟨2 + header.length, line :: rest, Nat.le_refl _, ?_, rfl⟩
          rw [if_neg blank, headerLine?_eq_none (file.ended line (by simp))]
          rfl
    have opened : (Reader.ofFormat f (ofText cs)).readHeader =
        (.ok (), atLines f (headerOf header) (numbered n rest)) := by
      have said := readHeaderLines_foldl lines .blank 2 (numbered (2 + header.length) body)
      rw [← headerOf, ended] at said
      simp only [Reader.readHeader, Reader.ofFormat, whole, ne_eq, not_true, if_false, known, said]
      rfl
    have length : (Reader.ofFormat f (ofText cs)).lines.length = 1 + header.length + body.length := by
      simp [Reader.ofFormat, whole, length_numbered]
      omega
    rw [if_pos known, Reader.readAll, readUpTo_of_readHeader opened rfl, same, toOption_readUpTo (by omega)]
  · rw [if_neg known]
    simp [Reader.readAll, Reader.readUpTo, Reader.readNext, Reader.readHeader, Reader.ofFormat, whole, known,
      Except.toOption]

theorem hasFeature_headerOf (f : Format) (said : ∀ feature, feature ∈ absent ↔ feature ∈ (headerOf header).absent) :
    (atLines f (headerOf header) []).hasFeature = f.carries absent := by
  funext feature
  have same : (headerOf header).absent.contains feature = absent.contains feature := by
    rw [Bool.eq_iff_iff, List.contains_iff_mem, List.contains_iff_mem, said]
  rw [Format.carries, ← same]
  rfl

/-- **Marks.** A header has marks for some features behind its banner. A file that can be read without these marks
can be read with them, and it gives the same but for what was left out: it has no constants if these were, no
hidden names if these were, no modules if these were. Of two files with the marks whose bodies differ in nothing but
what the marks or the format leave out, either gives what the other one gives. -/
theorem readAll_marked (marks : AddsMarks absent header marked) (f : Format) (banner : List Char) :
    (∀ plain cs body ds, IsFile plain banner header body → IsFile cs banner marked body →
      (Reader.ofFormat f (ofText plain)).readAll.1 = .ok ds →
        (Reader.ofFormat f (ofText cs)).readAll.1 = .ok (ClassDescription.allWithout absent ds)) ∧
    ∀ cs cs' a b, IsFile cs banner marked a → IsFile cs' banner marked b → AlikeBodies f (f.carries absent) a b →
      ∀ ds, (Reader.ofFormat f (ofText cs)).readAll.1 = .ok ds ↔
        (Reader.ofFormat f (ofText cs')).readAll.1 = .ok ds := by
  have features : (atLines f (headerOf marked) []).hasFeature = f.carries absent := by
    refine hasFeature_headerOf f fun feature => ?_
    rw [marks.marks, mem_absent_headerOf marks.lines]
  constructor
  · intro plain cs body ds isPlain isMarked read
    have lines : ∀ line ∈ header, IsHeaderLine line := by
      intro line mem
      rw [marks.others] at mem
      exact marks.lines line (List.mem_of_mem_filter mem)
    -- without the marks nothing was left out
    have all : (atLines f (headerOf header) []).hasFeature = f.carries [] := by
      refine hasFeature_headerOf f fun feature => ?_
      rw [mem_absent_headerOf lines, marks.others]
      refine ⟨nofun, ?_⟩
      rintro ⟨line, mem, isMark⟩
      simp [isMark] at mem
    have read' : (Reader.ofFormat f (ofText plain)).readAll.1.toOption = some ds := by rw [read]; rfl
    rw [toOption_readAll isPlain lines] at read'
    split at read'
    · rename_i known
      have less : (atLines f (headerOf marked) []).hasFeature =
          fun feature => (atLines f (headerOf header) []).hasFeature feature && !absent.contains feature := by
        rw [features, all]
        funext feature
        simp [Format.carries]
      have given := given_without (isBody_of_given read') less
      refine (toOption_eq_iff (y := .ok _)).1 ?_ _ |>.2 rfl
      rw [toOption_readAll isMarked marks.lines, if_pos known, given, read']
      rfl
    · cases read'
  · intro cs cs' a b first second alike
    rw [← features] at alike
    rw [← toOption_eq_iff, toOption_readAll first marks.lines, toOption_readAll second marks.lines, alike.given_eq]

/-- A header without marks. -/
def plainHeader : List (List Char) := ["version 1".toList]

/-- The header with marks in front of its line and behind it. -/
def markedHeader : List (List Char) :=
  ["#ConstInfo".toList, "version 1".toList, "#ModuleInfo ".toList, "#ListOfHiders".toList, "#CopyRight".toList]

/-- A body with a module, and a class with a constant and a hidden field. -/
def fullBody : List (List Char) :=
  [[], "<module name=\"m\"/>".toList, "CLSS public a.B".toList, "FLD public int size = 5".toList,
    "hfds secret".toList, "anno 0 a.D()".toList]

/-- Without the module, with another constant, and with a hidden class instead of the field. -/
def otherBody : List (List Char) :=
  [[], "CLSS public a.B".toList, "FLD public int size = 6".toList, "anno 0 a.D()".toList, "hcls Inner".toList]

/-- A file of the newest format. -/
def fileOf (header body : List (List Char)) : List Char :=
  ("#Signature file v4.3".toList :: (header ++ body)).flatMap Writer.lined

/-- What is left out. -/
def markedFeatures : List Feature := [.constInfo, .moduleInfo, .listOfHiders, .copyRight]

theorem readAll_marked_fullBody : ∃ ds,
    (Reader.ofFormat .v43 (ofText (fileOf plainHeader fullBody))).readAll.1 = .ok ds ∧
      ds.map (·.name) = ["m", "a.B"] ∧
      (Reader.ofFormat .v43 (ofText (fileOf markedHeader fullBody))).readAll.1 =
        .ok (ClassDescription.allWithout markedFeatures ds) ∧
      (Reader.ofFormat .v43 (ofText (fileOf markedHeader otherBody))).readAll.1 =
        .ok (ClassDescription.allWithout markedFeatures ds) := by
  have marks : AddsMarks markedFeatures plainHeader markedHeader :=
    ⟨by unfold IsHeaderLine; decide, by decide, fun feature => by cases feature <;> decide⟩
  have isPlain : IsFile (fileOf plainHeader fullBody) "#Signature file v4.3".toList plainHeader fullBody :=
    ⟨lineTexts_lined (by unfold SingleLine; decide), by unfold IsHeaderLine; decide⟩
  have isMarked : IsFile (fileOf markedHeader fullBody) "#Signature file v4.3".toList markedHeader fullBody :=
    ⟨lineTexts_lined (by unfold SingleLine; decide), by unfold IsHeaderLine; decide⟩
  have isOther : IsFile (fileOf markedHeader otherBody) "#Signature file v4.3".toList markedHeader otherBody :=
    ⟨lineTexts_lined (by unfold SingleLine; decide), by unfold IsHeaderLine; decide⟩
  have isModule : IsModule "<module name=\"m\"/>".toList [] (.named "m") :=
    ⟨by decide, by rw [IsModuleBody, if_pos (by decide)], by decide +kernel⟩
  have field : SameField Format.v43.rules "a.B" "FLD public int size = 5".toList "FLD public int size = 6".toList :=
    ⟨by decide, by decide, _, _, rfl, rfl, by decide⟩
  have lines : AlikeLines .v43 (Format.v43.carries markedFeatures) "a.B"
      ["FLD public int size = 5".toList, "hfds secret".toList, "anno 0 a.D()".toList]
      ["FLD public int size = 6".toList, "anno 0 a.D()".toList, "hcls Inner".toList] :=
    .field (by decide) field (.left (.inr (by decide)) (.same (by unfold BeginsBlock; decide)
      (.right (.inr (by decide)) .nil)))
  have nothing : StartsAtBlock [] := by simp [StartsAtBlock]
  have parsed : Line.parseClassHeader "CLSS public a.B".toList = .ok ⟨.ofList [.public], "a.B", none⟩ := by
    decide +kernel
  have alike : AlikeBodies .v43 (Format.v43.carries markedFeatures) fullBody otherBody :=
    .blankLeft rfl (.blankRight rfl (.moduleLeft (by decide) isModule
      (.class (a := []) (b := []) (by decide) parsed lines nothing nothing .nil)))
  have named : ((Reader.ofFormat .v43 (ofText (fileOf plainHeader fullBody))).readAll.1.toOption.map
      fun ds => ds.map (·.name)) = some ["m", "a.B"] := by decide +kernel
  obtain ⟨ds, found, names⟩ := Option.map_eq_some_iff.1 named
  have read := ((toOption_eq_iff (y := .ok ds)).1 found ds).2 rfl
  obtain ⟨less, same⟩ := readAll_marked marks .v43 "#Signature file v4.3".toList
  have marked := less _ _ _ _ isPlain isMarked read
  exact ⟨ds, read, names, marked, (same _ _ _ _ isMarked isOther alike _).1 marked⟩

end SignatureFile
end ApiSurface
