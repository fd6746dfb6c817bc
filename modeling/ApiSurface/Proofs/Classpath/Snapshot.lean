import ApiSurface.Proofs.Classpath.Capture
import ApiSurface.Proofs.Classpath.Enumeration
import ApiSurface.Proofs.SignatureFile.Accepted
import ApiSurface.Proofs.SignatureFile.WellFormed

/-!
The text of a capture as an element of a class path. Main statements: what a signature file on a class path
gives was read from lines (`fromLines_of_find`), and if every class is called as its place says and can be
written on lines, the text of a capture lists the names of the class path in their order and has for each of
them a class with the same lines (`openAt_capture`).
-/

namespace ApiSurface

open ApiSurface.Text ApiSurface.SignatureFile

/-! ### Opening a file that is read -/

/-- A file that can be read in a format is recognized by its first line. -/
theorem Reader.open?_of_readAll {f : Format} (known : f ∈ Format.newestFirst) {lines : List SourceLine}
    {cs : List ClassDescription} {r : Reader} (read : (ofFormat f lines).readAll = (.ok cs, r)) :
    open? lines = .ok (some (ofFormat f lines)) := by
  have header : ∃ r', (ofFormat f lines).readHeader = (.ok (), r') := by
    cases opened : (ofFormat f lines).readHeader with
    | mk result behind =>
      cases result with
      | ok => exact ⟨behind, rfl⟩
      | error e => simp [readAll, readUpTo, readNext, opened] at read
  obtain ⟨r', header⟩ := header
  cases lines with
  | nil => simp [readHeader, ofFormat] at header
  | cons line rest =>
    cases line with
    | undecodable => simp [readHeader, ofFormat] at header
    | text n cs =>
      have banner : String.ofList (trimEnd cs) = f.banner := by
        by_contra other
        simp [readHeader, ofFormat, other] at header
      have same : Format.byBanner? cs = some f := by
        have trimmed := Format.byBanner?_banner known
        rw [Format.byBanner?, trimEnd_banner known, String.ofList_toList] at trimmed
        rw [Format.byBanner?, banner, trimmed]
      rw [open?, same, Option.map_some]

/-- Nobody owns any of several names that differ: all of them are gained. -/
theorem Shadow.gained_claimAll_of_free {s : Shadow} {names : List String} (once : names.Nodup)
    (free : ∀ name ∈ names, s.owner? name = none) (entry : Nat) : (s.claimAll names entry).1 = names := by
  induction names generalizing s with
  | nil => rfl
  | cons name more ih =>
    obtain ⟨new, once⟩ := List.nodup_cons.1 once
    have first : s.claim name entry = (true, ⟨(name, entry) :: s.owners⟩) := by
      simp [claim, free name (by simp)]
    have others : ∀ other ∈ more, (Shadow.mk ((name, entry) :: s.owners)).owner? other = none := by
      intro other mem
      have differ : other ≠ name := fun same => new (same ▸ mem)
      have kept := owner?_claim_of_ne differ entry (s := s)
      rw [first] at kept
      rw [kept, free other (by simp [mem])]
    simp only [claimAll, first, ih once others]

namespace Loaded

/-- Classes whose names differ are all kept. -/
theorem firstOfName_of_nodup {cs : List ClassDescription} (once : (cs.map (·.name)).Nodup) :
    firstOfName cs = cs := by
  induction cs with
  | nil => rfl
  | cons c cs ih =>
    obtain ⟨new, once⟩ := List.nodup_cons.1 once
    have others : cs.filter (·.name != c.name) = cs := by
      refine List.filter_eq_self.2 fun d mem => bne_iff_ne.2 fun same => new ?_
      exact List.mem_map.2 ⟨d, mem, same⟩
    rw [firstOfName, ih once, others]

theorem firstOfName_sublist (cs : List ClassDescription) : (firstOfName cs).Sublist cs := by
  induction cs with
  | nil => exact .slnil
  | cons c cs ih => exact (List.filter_sublist.trans ih).cons_cons c

/-- Of classes whose names differ each one is found by its name. -/
theorem find?_of_nodup {cs : List ClassDescription} (once : (cs.map (·.name)).Nodup) {c : ClassDescription}
    (mem : c ∈ cs) : cs.find? (·.name == c.name) = some c := by
  induction cs with
  | nil => cases mem
  | cons d cs ih =>
    obtain ⟨new, once⟩ := List.nodup_cons.1 once
    rcases List.mem_cons.1 mem with rfl | mem
    · simp
    · have differ : (d.name == c.name) = false :=
        beq_false_of_ne fun same => new (List.mem_map.2 ⟨c, mem, same.symm⟩)
      rw [List.find?_cons, differ, ih once mem]

/-- A file of modules and of classes whose names differ, opened. -/
theorem ofDescriptions_append (ms : List ModuleDescription) {ds : List ClassDescription}
    (own : ∀ d ∈ ds, d.moduleInfo = none) (once : (ds.map (·.name)).Nodup) :
    ofDescriptions (ms.map .ofModule ++ ds) = ⟨.signatureFile ds ms, ds.map (·.name)⟩ := by
  have classes : (ms.map ClassDescription.ofModule ++ ds).filter (!·.isModule) = ds := by
    rw [List.filter_append, List.filter_eq_nil_iff.2 fun c mem => ?_,
      List.filter_eq_self.2 fun d mem => by simp [ClassDescription.isModule, own d mem], List.nil_append]
    obtain ⟨m, -, rfl⟩ := List.mem_map.1 mem
    simp [ClassDescription.isModule, ClassDescription.ofModule]
  have modules : (ms.map ClassDescription.ofModule ++ ds).filterMap (·.moduleInfo) = ms := by
    have none : ds.filterMap (·.moduleInfo) = [] := List.filterMap_eq_nil_iff.2 own
    rw [List.filterMap_append, none, List.append_nil, List.filterMap_map]
    exact List.filterMap_some
  rw [ofDescriptions, classes, modules, firstOfName_of_nodup once]

end Loaded

/-! ### Signature files on a class path -/

/-- A signature file gives classes that were read from lines. -/
def Source.OfLines (s : Source) : Prop :=
  ∀ classes modules, s = .signatureFile classes modules →
    ∀ c ∈ classes, ∃ active, c.FromLines active False

theorem Loaded.ofLines_of_ofKind {kind : EntryKind} {settings : Settings} {fs after : FileSystem} {p : Path}
    {loaded : Loaded} (opened : ofKind kind settings fs p = (.ok loaded, after)) : loaded.source.OfLines := by
  intro classes modules same c mem
  rcases ofKind_cases opened with ⟨names, -, rfl⟩ | ⟨a, rfl⟩ | ⟨target, roots, names, -, rfl⟩ |
    ⟨f, lines, cs, r, read, rfl⟩
  · cases same
  · cases same
  · cases same
  · cases same
    obtain ⟨inFile, noModule⟩ := List.mem_filter.1 ((firstOfName_sublist _).subset mem)
    have shape : ∀ c ∈ cs, WasRead r.hasFeature False c := (wasRead_of_readAll (by simp) read).2
    rcases shape c inFile with ⟨m, rfl, -⟩ | shape
    · simp [ClassDescription.isModule, ClassDescription.ofModule] at noModule
    · exact ⟨_, shape⟩

/-- A source that gives a description is a signature file that has a class of this name. -/
theorem Source.of_find_description {s : Source} {fs : FileSystem} {name : String} {c : ClassDescription}
    (found : s.find fs name = .ok (.description c)) :
    ∃ classes modules, s = .signatureFile classes modules ∧ c ∈ classes ∧ c.name = name := by
  have noFile (root : Path) : ClassDirectory.find fs root name ≠ .ok (.description c) := by
    intro given
    obtain ⟨bytes, -, other⟩ := ClassDirectory.find_eq_ok_iff.1 given
    cases other
  cases s with
  | directory root => exact absurd found (noFile root)
  | archive path contents present =>
    rw [Source.find] at found
    split at found
    · split at found <;> cases found
    · cases found
  | image extracted roots =>
    obtain ⟨root, -, given⟩ := exists_of_firstHit _ found
    exact absurd given (noFile root)
  | signatureFile classes modules =>
    rw [Source.find] at found
    split at found
    · rename_i d there
      cases found
      exact ⟨classes, modules, rfl, List.mem_of_find?_eq_some there, by simpa using List.find?_some there⟩
    · cases found

namespace Classpath

/-- A description that a class path gives has the name that was asked for, and was read from lines. -/
theorem fromLines_of_find {settings : Settings} {text : List Char} {fs fs' files : FileSystem} {cp : Classpath}
    (opening : openAll settings text fs = (cp, fs')) {name : String} {c : ClassDescription}
    (found : cp.find files name = .ok (.description c)) :
    c.name = name ∧ ∃ active, c.FromLines active False := by
  have all : ∀ e ∈ cp.entries, e.source.OfLines := by
    have kept := (openAll_induction settings (P := fun entries _ => ∀ e ∈ entries, e.source.OfLines) (by simp)
      (fun entries shadow kind files after p loaded old opened e mem => ?_) text fs).1
    · rwa [opening] at kept
    · rcases List.mem_append.1 mem with mem | mem
      · exact old e mem
      · obtain rfl := List.mem_singleton.1 mem
        exact Loaded.ofLines_of_ofKind opened
  obtain ⟨e, inEntries, given⟩ := exists_of_firstHit _ found
  obtain ⟨classes, modules, same, mem, named⟩ := Source.of_find_description given
  exact ⟨named, all e inEntries classes modules same c mem⟩

end Classpath

/-! ### Captures on a class path -/

/-- A writer of the newest format with all its features. -/
def Writer.full (version : String) (copyright : Option String) : Writer :=
  { Writer.ofFormat .v43 with apiVersion := version, copyright }

theorem Writer.hasFeature_full (version : String) (copyright : Option String) (x : Feature) :
    (full version copyright).hasFeature x = true := by
  cases x <;> rfl

/-- What is found for a name is a class of this name that can be written on lines. Nothing is asked of
descriptions but that their texts stay on lines. -/
def Found.StandsFor (name : String) : Found → Prop
  | .bytecode bytes => ∀ c, ClassFile.parse bytes = .ok c →
    c.name = name ∧ c.moduleInfo = none ∧ c.SourceClass
  | .description c => c.StaysOnLines

/-- A class that stands for its name is printable as far as a full writer keeps it. -/
theorem Found.StandsFor.printable {found : Found} {name : String} (stands : found.StandsFor name)
    {d : ClassDescription} (described : found.describe = .ok d)
    (lines : ∀ c, found = .description c → c.name = name ∧ ∃ active, c.FromLines active False)
    {active : Feature → Bool} (all : ∀ x, active x = true) :
    d.name = name ∧ d.moduleInfo = none ∧ (d.project active).Printable := by
  cases found with
  | bytecode bytes =>
    have parsed : ClassFile.parse bytes = .ok d := by
      cases result : ClassFile.parse bytes with
      | error bad => simp [Found.describe, result, Except.mapError] at described
      | ok c => simpa [Found.describe, result, Except.mapError] using described
    obtain ⟨named, own, source⟩ := stands d parsed
    exact ⟨named, own, source.printable own⟩
  | description c =>
    obtain rfl : c = d := by simpa [Found.describe] using described
    obtain ⟨named, before, read⟩ := lines c rfl
    have whole : c.FromLines active True := (read.mono fun x _ => all x).of_staysOnLines stands
    refine ⟨named, read.noModule, ?_⟩
    rw [whole.project_eq (all _)]
    exact whole.printable trivial

/-- What a full writer keeps of a class has the lines of the class. -/
theorem Writer.classLines_arrange_project {w : Writer} (rules : w.format.rules = [])
    (generics : w.hasFeature .tigerInfo = true) {d : ClassDescription}
    (printable : (d.project w.hasFeature).Printable) :
    ∃ lines, w.classLines d = .ok lines ∧ w.classLines (d.project w.hasFeature).arrange = .ok lines := by
  have erases (c : ClassDescription) : c.ErasesThrows w.hasFeature := fun left => by simp [generics] at left
  refine ⟨_, classLines_project rules (erases d), ?_⟩
  rw [classLines_project rules (erases _), printable.arrange.project_eq d.carried_project.arrange generics,
    ClassDescription.arrange_arrange]

namespace Classpath

/-- If every name is described by a class that is called so, the classes have these names. -/
theorem map_name_described {cp : Classpath} {fs : FileSystem} {names : List String}
    (each : ∀ name ∈ names, ∃ d, cp.describe fs name = .ok d ∧ d.name = name) :
    (cp.described fs names).map (·.name) = names := by
  induction names with
  | nil => rfl
  | cons name more ih =>
    obtain ⟨d, here, named⟩ := each name (by simp)
    have later := ih fun other mem => each other (by simp [mem])
    rw [(described_cons_ok here more).1, List.map_cons, later, named]

/-- If nothing is left out, there is a description for every name. -/
theorem describe_eq_ok_of_undescribed {cp : Classpath} {fs : FileSystem} {names : List String}
    (none : cp.undescribed fs names = []) {name : String} (mem : name ∈ names) :
    ∃ d, cp.describe fs name = .ok d := by
  have known := List.filterMap_eq_nil_iff.1 none name mem
  cases result : cp.describe fs name with
  | ok d => exact ⟨d, rfl⟩
  | error fault => simp [result] at known

/-- A file of modules and of classes whose names differ, read back when it is opened as an element. -/
theorem openAt_signatureFile {f : Format} (known : f ∈ Format.newestFirst) {text : List Char} {r : Reader}
    {ms : List ModuleDescription} {ds : List ClassDescription} (own : ∀ d ∈ ds, d.moduleInfo = none)
    (once : (ds.map (·.name)).Nodup)
    (read : (Reader.ofFormat f (ofText text)).readAll = (.ok (ms.map .ofModule ++ ds), r))
    {files : FileSystem} {p : Path} (file : files.read p = .ok (text.flatMap String.utf8EncodeChar))
    (settings : Settings) :
    ∃ shadow, Entry.openAt .signatureFile settings p .empty 0 files =
      (.ok (⟨p, .ofNames (ds.map (·.name)), .signatureFile ds ms⟩, shadow), files) := by
  have recognized := Reader.open?_of_readAll known read
  have loaded : Loaded.ofKind .signatureFile settings files p =
      (.ok ⟨.signatureFile ds ms, ds.map (·.name)⟩, files) := by
    simp only [Loaded.ofKind, Loaded.signatureFile, file, ofBytes_utf8, recognized, read,
      Loaded.ofDescriptions_append ms own once]
  have gained := Shadow.gained_claimAll_of_free (s := .empty) once (fun _ _ => rfl) 0
  refine ⟨(Shadow.empty.claimAll (ds.map (·.name)) 0).2, ?_⟩
  simp only [Entry.openAt, loaded, Entry.claim, gained]

/-- Of modules and classes, the modules are kept as they are and the classes as far as they can be written. -/
theorem filterMap_project?_snapshot {active : Feature → Bool} (on : active .moduleInfo) (ms : List ModuleDescription)
    {ds : List ClassDescription} (own : ∀ d ∈ ds, d.moduleInfo = none) :
    (ms.map ClassDescription.ofModule ++ ds).filterMap (ClassDescription.project? active) =
      ms.map ClassDescription.ofModule ++ ds.map (ClassDescription.project active) := by
  rw [List.filterMap_append, List.filterMap_map, ← List.filterMap_eq_map, ← List.filterMap_eq_map]
  congr 1
  · exact List.filterMap_congr fun m _ => ClassDescription.project?_of_module active rfl on
  · exact List.filterMap_congr fun d mem => ClassDescription.project?_of_class active (own d mem)

/-- The text of a capture in which nothing was left out gives back the modules, and the classes in their
order, as they were written. -/
theorem readAll_capture {cp : Classpath} {fs : FileSystem} (isOpen : cp.isClosed = false) {version : String}
    {copyright : Option String} (versionLine : SingleLine version.toList)
    (copyrightLines : ∀ t ∈ (Writer.full version copyright).copyrightTexts, SingleLine t)
    {result : Except WriteError Unit} {c : Capture}
    (captured : cp.capture fs (.full version copyright) = (result, c))
    (modules : ∀ ms, cp.modules fs = .ok ms → ∀ m ∈ ms, ∀ t ∈ m.texts, SingleLine t.toList)
    (printable : ∀ d ∈ cp.described fs cp.names, d.moduleInfo = none ∧
      (d.project (Writer.full version copyright).hasFeature).Printable) :
    result = .ok () ∧ c.snapshot.skipped =
        cp.unknownModules fs (.full version copyright) ++ cp.undescribed fs cp.names ∧
      ∃ (ms : List ModuleDescription) (r : Reader),
        (Reader.ofFormat .v43 (ofText c.text)).readAll = (.ok (ms.map .ofModule ++ (cp.described fs cp.names).map
          fun d => (d.project (Writer.full version copyright).hasFeature).arrange), r) := by
  generalize same : Writer.full version copyright = w at *
  have all : ∀ x, w.hasFeature x = true := by
    subst same
    exact Writer.hasFeature_full version copyright
  let ms := cp.givenModules fs w
  let ds := cp.described fs cp.names
  have kept := filterMap_project?_snapshot (all .moduleInfo) ms fun d mem => (printable d mem).1
  have readable : ∀ d ∈ (ms.map ClassDescription.ofModule ++ ds).filterMap
      (ClassDescription.project? w.hasFeature), d.Readable w.hasFeature := by
    rw [kept]
    intro d mem
    rcases List.mem_append.1 mem with mem | mem
    · obtain ⟨m, given, rfl⟩ := List.mem_map.1 mem
      obtain ⟨on, others, known, listed⟩ := exists_of_mem_givenModules given
      exact .ofModule on (modules others known m listed)
    · obtain ⟨d, inside, rfl⟩ := List.mem_map.1 mem
      exact .ofClass (printable d inside).2 d.carried_project
  have erases : ∀ d ∈ ms.map ClassDescription.ofModule ++ ds, d.moduleInfo = none → d.ErasesThrows w.hasFeature :=
    fun d _ _ left => by simp [all] at left
  have known : w.format ∈ Format.newestFirst := by
    subst same
    exact (by decide : Format.v43 ∈ Format.newestFirst)
  obtain ⟨wrote, r, read, -⟩ := readAll_of_writeAll (w := w) known (by subst same; rfl)
    (by subst same; exact fun x mem => mem) (by subst same; rfl) (by subst same; exact versionLine) copyrightLines
    erases readable
  obtain ⟨classpath, done⟩ := capture_eq isOpen wrote
  rw [captured] at done
  obtain ⟨rfl, rfl⟩ := Prod.mk.inj done
  refine ⟨rfl, rfl, ms, r, ?_⟩
  have format : w.format = .v43 := by
    subst same
    rfl
  rw [← format, read, kept, List.map_append, List.map_map, List.map_map]
  congr 3
  exact List.map_congr_left fun m _ => ClassDescription.arrange_ofModule m

/-- **A capture serves as a class path element.** If nothing was left out and every class stands for its
name, the file of the text lists the names of the class path in their order, each once, and has for each of
them a class with the same lines. -/
theorem openAt_capture {settings : Settings} {text : List Char} {fs fs' files : FileSystem}
    {cp walked : Classpath} (opening : openAll settings text fs = (cp, fs')) (reached : Walked cp walked)
    {version : String} {copyright : Option String} (versionLine : SingleLine version.toList)
    (copyrightLines : ∀ t ∈ (Writer.full version copyright).copyrightTexts, SingleLine t)
    {result : Except WriteError Unit} {c : Capture}
    (captured : walked.capture fs' (.full version copyright) = (result, c)) (complete : c.snapshot.skipped = [])
    (modules : ∀ ms, cp.modules fs' = .ok ms → ∀ m ∈ ms, ∀ t ∈ m.texts, SingleLine t.toList)
    (faithful : ∀ name ∈ cp.names, ∀ found, cp.find fs' name = .ok found → found.StandsFor name) {p : Path}
    (file : files.read p = .ok (c.text.flatMap String.utf8EncodeChar)) (settings' : Settings) :
    result = .ok () ∧ cp.names.Nodup ∧
      (∀ limit, cp.names.length ≤ limit → walked.rewind.given limit = cp.names) ∧
      ∃ e shadow, Entry.openAt .signatureFile settings' p .empty 0 files = (.ok (e, shadow), files) ∧
        e.listing = .ofNames cp.names ∧
        ∀ name ∈ cp.names, ∃ d copy lines, walked.describe fs' name = .ok d ∧
          e.find files name = .ok (.description copy) ∧
          (Writer.ofFormat .v43).classLines d = .ok lines ∧
          (Writer.ofFormat .v43).classLines copy = .ok lines := by
  have isOpen : cp.isClosed = false := by
    have stays := isClosed_openAll settings text fs
    rwa [opening] at stays
  have once : cp.names.Nodup := by
    have all := nodup_names settings text fs
    rwa [opening] at all
  obtain ⟨names, stays⟩ := reached.names
  have full := Writer.hasFeature_full version copyright
  -- whatever is described stands for its name
  have stands : ∀ name ∈ cp.names, ∀ d, walked.describe fs' name = .ok d → d.name = name ∧
      d.moduleInfo = none ∧ (d.project (Writer.full version copyright).hasFeature).Printable := by
    intro name mem d described
    rw [describe_congr reached.faces, describe] at described
    split at described
    · rename_i found there
      refine (faithful name mem found there).printable described (fun c same => ?_) full
      exact fromLines_of_find opening (same ▸ there)
    · cases described
  obtain ⟨done, skipped, ms, r, read⟩ := readAll_capture (stays.trans isOpen) versionLine copyrightLines captured
    (fun ms known => modules ms (modules_congr reached.faces fs' ▸ known)) fun d mem => by
      obtain ⟨name, inNames, described⟩ := mem_described_iff.1 mem
      exact (stands name (names ▸ inNames) d described).2
  obtain ⟨-, known⟩ := List.append_eq_nil_iff.1 (skipped.symm.trans complete)
  have every : ∀ name ∈ cp.names, ∃ d, walked.describe fs' name = .ok d := fun name mem =>
    describe_eq_ok_of_undescribed known (names ▸ mem)
  let copy (d : ClassDescription) : ClassDescription :=
    (d.project (Writer.full version copyright).hasFeature).arrange
  have called : ((walked.described fs' walked.names).map copy).map (·.name) = cp.names := by
    rw [List.map_map, names]
    refine map_name_described fun name mem => ?_
    obtain ⟨d, described⟩ := every name mem
    exact ⟨d, described, (stands name mem d described).1⟩
  have own : ∀ d ∈ (walked.described fs' walked.names).map copy, d.moduleInfo = none := by
    intro e mem
    obtain ⟨d, inside, rfl⟩ := List.mem_map.1 mem
    obtain ⟨name, inNames, described⟩ := mem_described_iff.1 inside
    exact (stands name (names ▸ inNames) d described).2.1
  obtain ⟨shadow, opened⟩ := openAt_signatureFile (by decide) own (by rw [called]; exact once) read file settings'
  refine ⟨done, once, fun limit enough => given_rewind isOpen reached enough, _, shadow, opened, ?_,
    fun name mem => ?_⟩
  · rw [called]
  · obtain ⟨d, described⟩ := every name mem
    obtain ⟨named, -, printable⟩ := stands name mem d described
    have inside : copy d ∈ (walked.described fs' walked.names).map copy :=
      List.mem_map_of_mem (mem_described_iff.2 ⟨name, names ▸ mem, described⟩)
    have there := Loaded.find?_of_nodup (by rw [called]; exact once) inside
    have same : (copy d).name = name := named
    obtain ⟨lines, theirs, ours⟩ := Writer.classLines_arrange_project (w := .ofFormat .v43) rfl (by decide) printable
    refine ⟨d, copy d, lines, described, ?_, theirs, ours⟩
    rw [same] at there
    simp only [Entry.find, Source.find, there]

/-- A signature file with one class, which has a field. -/
def oldFile : FileSystem :=
  let text := "#Signature file v4.3\nversion 1\n\nCLSS public a.B\nFLD public int count\n\n"
  ⟨.directory [("old.sig".toList, .file (text.toList.flatMap String.utf8EncodeChar) false)], [], []⟩

/-- The class in the file. -/
def countingClass : ClassDescription :=
  { ClassDescription.named "a.B" (.ofList [.public]) with
    fields := [.field "a.B" "count" (.ofList [.public]) "int" none] }

theorem staysOnLines_countingClass : countingClass.StaysOnLines := by
  refine ⟨by decide, fun kind m mem => ?_, by simp [countingClass, ClassDescription.named],
    by simp [countingClass, ClassDescription.named], by simp [countingClass, ClassDescription.named]⟩
  cases kind with
  | field =>
    obtain rfl := List.mem_singleton.1
      (show m ∈ [Member.field "a.B" "count" (.ofList [.public]) "int" none] from mem)
    exact ⟨⟨by decide, by decide, by simp⟩, by simp [Member.field]⟩
  | superclass | superinterface | method | constructor | nested => cases mem

/-- A class path of a signature file is captured in a file that lists its class. -/
theorem openAt_capture_oldFile :
    ∃ (text : List Char) (e : Entry) (shadow : Shadow),
      ((openAll .usual "old.sig".toList oldFile).1.capture oldFile (.full "2" none)).2.text = text ∧
        Entry.openAt .signatureFile .usual "new.sig".toList .empty 0
          ⟨.directory [("new.sig".toList, .file (text.flatMap String.utf8EncodeChar) false)], [], []⟩ =
            (.ok (e, shadow),
              ⟨.directory [("new.sig".toList, .file (text.flatMap String.utf8EncodeChar) false)], [], []⟩) ∧
        e.listing = .ofNames ["a.B"] := by
  have opening : openAll .usual "old.sig".toList oldFile =
      ((openAll .usual "old.sig".toList oldFile).1, oldFile) := rfl
  have names : (openAll .usual "old.sig".toList oldFile).1.names = ["a.B"] := by decide +kernel
  have complete : ((openAll .usual "old.sig".toList oldFile).1.capture oldFile
      (.full "2" none)).2.snapshot.skipped = [] := by decide +kernel
  have found : (openAll .usual "old.sig".toList oldFile).1.find oldFile "a.B" =
      .ok (.description countingClass) := rfl
  obtain ⟨-, -, -, e, shadow, opened, listing, -⟩ := openAt_capture opening .start
    (by decide) (by decide) (Prod.mk.eta.symm) complete
    (fun ms known m mem => by
      have none : (openAll .usual "old.sig".toList oldFile).1.modules oldFile = .ok [] := rfl
      rw [none] at known
      cases known
      cases mem)
    (fun name mem found' there => by
      rw [names, List.mem_singleton] at mem
      subst mem
      obtain rfl := Except.ok.inj (found.symm.trans there)
      exact staysOnLines_countingClass)
    (show FileSystem.read ⟨.directory [("new.sig".toList, .file _ false)], [], []⟩ "new.sig".toList = .ok _ from rfl)
    .usual
  exact ⟨_, e, shadow, rfl, opened, names ▸ listing⟩

/-- The class file of `a.B` with a public nested class `annotation`. -/
def nestedModifier : FileSystem :=
  let bytes : List UInt8 :=
    [202, 254, 186, 190, 0, 0, 0, 52, 0, 9, 1, 0, 3, 97, 47, 66, 7, 0, 1, 1, 0, 16, 106, 97, 118, 97, 47,
      108, 97, 110, 103, 47, 79, 98, 106, 101, 99, 116, 7, 0, 3, 1, 0, 14, 97, 47, 66, 36, 97, 110, 110, 111,
      116, 97, 116, 105, 111, 110, 7, 0, 5, 1, 0, 10, 97, 110, 110, 111, 116, 97, 116, 105, 111, 110, 1, 0,
      12, 73, 110, 110, 101, 114, 67, 108, 97, 115, 115, 101, 115, 0, 33, 0, 2, 0, 4, 0, 0, 0, 0, 0, 0, 0, 1,
      0, 8, 0, 0, 0, 10, 0, 1, 0, 6, 0, 2, 0, 7, 0, 1]
  ⟨.directory [("classes".toList,
    .directory [("a".toList, .directory [("B.class".toList, .file bytes false)])])], [], []⟩

/-- Where a nested class is called like a modifier, nothing is left out of the capture, and the file of its
text cannot be opened. -/
theorem openAt_capture_ne_ok : ∃ c, (openAll .usual "classes".toList nestedModifier).1.capture nestedModifier
      (.full "" none) = (.ok (), c) ∧ c.snapshot.skipped = [] ∧
    ∀ files p, files.read p = .ok (c.text.flatMap String.utf8EncodeChar) →
      ∃ fault, Entry.openAt .signatureFile .usual p .empty 0 files = (.error fault, files) := by
  have done : ((openAll .usual "classes".toList nestedModifier).1.capture nestedModifier
      (.full "" none)).1 = .ok () := by decide +kernel
  have complete : ((openAll .usual "classes".toList nestedModifier).1.capture nestedModifier
      (.full "" none)).2.snapshot.skipped = [] := by decide +kernel
  refine ⟨_, Prod.ext done rfl, complete, fun files p file => ?_⟩
  have text : ((openAll .usual "classes".toList nestedModifier).1.capture nestedModifier (.full "" none)).2.text =
      ("#Signature file v4.3\nversion \n\nCLSS public a.B\nSUPR java.lang.Object\n" ++
        "INNER public annotation\n\n").toList := by decide +kernel
  rw [text] at file
  have opens : Reader.open? (ofText ("#Signature file v4.3\nversion \n\nCLSS public a.B\nSUPR java.lang.Object\n" ++
      "INNER public annotation\n\n").toList) = .ok (some (.ofFormat .v43 _)) := rfl
  exact ⟨.badSignatures p (.malformed ⟨6, .missing "nested class name", "INNER public annotation"⟩), by
    simp only [Entry.openAt, Loaded.ofKind, Loaded.signatureFile, file, ofBytes_utf8, opens]
    rfl⟩

end Classpath
end ApiSurface
