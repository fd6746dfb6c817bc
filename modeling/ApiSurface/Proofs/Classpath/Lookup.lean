import ApiSurface.Classpath.Basic
import ApiSurface.Proofs.Files.Tree

/-!
What the sources of a class path have for a name that they offer, and for one that they do not. A name is
turned into a path to look it up, and a path into a name to list it, which agree only where files lie at
the paths of their classes (`Source.Fair`). Main statement: a source gives what it listed a name for, and
of other names it knows no more than that they are not there (`Offers.find`).
-/

namespace ApiSurface

open ApiSurface.Text

/-- The names on the path of a class. -/
def classWay (name : String) : List (List Char) := pieces '/' (classPath name)

@[simp] theorem join_classWay (name : String) : join ['/'] (classWay name) = classPath name :=
  join_pieces '/' (classPath name)

/-! ### Directories -/

namespace ClassDirectory

/-- A directory in which the path of a class can be followed to its file, or to nothing. -/
structure Fair (fs : FileSystem) (root : Path) (name : String) : Prop where
  /-- The files of the directory are listed. -/
  walked : root ≠ usualInput
  /-- The path of the class stands for it. -/
  stands : className? (classPath name) = some name
  proper : ∀ part ∈ classWay name, IsFileName part
  short : byteLength (root.join (classPath name)) < FileSystem.tooLongPath
  /-- Neither a file nor a directory is in the way. -/
  free : ∀ node, fs.find root = .ok node → node.Unobstructed (classWay name)
  /-- Only the path of the class stands for it. -/
  only : ∀ node way bytes, fs.find root = .ok node → (way, bytes) ∈ node.files →
    className? (join ['/'] way) = some name → join ['/'] way = classPath name

/-- Whether a class is listed in a directory. -/
def lists (fs : FileSystem) (root : Path) (name : String) : Bool :=
  match names fs root with
  | .ok names => names.contains name
  | .error _ => false

variable {fs : FileSystem} {root : Path} {name : String} {listed : List String}

/-- A directory lists the classes whose names its files stand for. -/
theorem mem_names_iff (offered : names fs root = .ok listed) (walked : root ≠ usualInput) :
    ∃ node, fs.find root = .ok node ∧
      (name ∈ listed ↔ ∃ way bytes, (way, bytes) ∈ node.files ∧ className? (join ['/'] way) = some name) := by
  unfold names at offered
  rw [if_neg walked] at offered
  cases found : fs.find root with
  | error fault => simp [found] at offered
  | ok node =>
    simp only [found, Except.ok.injEq] at offered
    refine ⟨node, rfl, ?_⟩
    simp [← offered, List.mem_mergeSort, List.mem_filterMap]

/-- What is looked up for a class is the file that the names on its path lead to. -/
theorem Fair.find_eq (fair : Fair fs root name) {node : FileNode} (found : fs.find root = .ok node) :
    find fs root name = match node.get? (classWay name) with
      | some (.file bytes _) => .ok (.bytecode bytes)
      | _ => .error (.classNotFound name) := by
  have free := fair.free node found
  have below := FileSystem.find_join found fair.proper fair.short free
  rw [find, FileSystem.read, below]
  cases there : node.get? (classWay name) with
  | none =>
    rw [classWay] at there
    simp [there]
  | some below =>
    obtain ⟨bytes, executable, rfl⟩ := free.isFile there
    rw [classWay] at there
    simp [there]

/-- What a directory lists is what it gives: the file at the path of the class. -/
theorem Fair.find_of_mem (fair : Fair fs root name) (tree : fs.root.Proper)
    (offered : names fs root = .ok listed) (mem : name ∈ listed) :
    ∃ node bytes, fs.find root = .ok node ∧ (classWay name, bytes) ∈ node.files ∧
      find fs root name = .ok (.bytecode bytes) := by
  obtain ⟨node, found, inListed⟩ := mem_names_iff offered fair.walked
  obtain ⟨place, -, there⟩ := FileSystem.find_eq_ok_iff.1 found
  have proper := tree.get? there
  obtain ⟨way, bytes, inFiles, stands⟩ := inListed.1 mem
  have same : way = classWay name := by
    have path := fair.only node way bytes found inFiles stands
    have filled : way ≠ [] := by
      rintro rfl
      exact absurd (List.append_eq_nil_iff.1 path.symm).2 (by decide)
    have slash : ∀ part ∈ way, '/' ∉ part := fun part inWay =>
      (FileNode.isFileName_of_mem_files proper inFiles part inWay).slash
    rw [← pieces_join filled slash, path, classWay]
  subst same
  obtain ⟨executable, leads⟩ := (FileNode.mem_files_iff proper).1 inFiles
  exact ⟨node, bytes, found, inFiles, by rw [fair.find_eq found, leads]⟩

/-- What a directory does not list is not there. -/
theorem Fair.find_of_notMem (fair : Fair fs root name) (tree : fs.root.Proper)
    (offered : names fs root = .ok listed) (absent : name ∉ listed) :
    find fs root name = .error (.classNotFound name) := by
  obtain ⟨node, found, inListed⟩ := mem_names_iff offered fair.walked
  obtain ⟨place, -, there⟩ := FileSystem.find_eq_ok_iff.1 found
  rw [fair.find_eq found]
  cases leads : node.get? (classWay name) with
  | none => rfl
  | some below =>
    obtain ⟨bytes, executable, rfl⟩ := (fair.free node found).isFile leads
    refine absurd (inListed.2 ⟨classWay name, bytes, ?_, ?_⟩) absent
    · exact (FileNode.mem_files_iff (tree.get? there)).2 ⟨executable, leads⟩
    · rw [join_classWay]
      exact fair.stands

end ClassDirectory

/-! ### One after another -/

/-- The items up to the first one with a property, and this one with them. -/
def upToFirst {α : Type} (p : α → Bool) : List α → List α
  | [] => []
  | a :: more => if p a then [a] else a :: upToFirst p more

section FirstHit

variable {α : Type} (lookup : α → Except LookupFault Found) {name : String}

theorem firstHit_cons_of_notFound {a : α} (absent : lookup a = .error (.classNotFound name))
    (more : List α) : firstHit lookup name (a :: more) = firstHit lookup name more := by
  simp [firstHit, absent, LookupFault.isNotFound]

/-- Lookups that find nothing leave the matter to those behind them. -/
theorem firstHit_append {before : List α} (absent : ∀ a ∈ before, lookup a = .error (.classNotFound name))
    (more : List α) : firstHit lookup name (before ++ more) = firstHit lookup name more := by
  induction before with
  | nil => rfl
  | cons a before ih =>
    rw [List.cons_append, firstHit_cons_of_notFound lookup (absent a (by simp)),
      ih fun b mem => absent b (by simp [mem])]

/-- A lookup that knows more decides the matter. -/
theorem firstHit_cons_of_known {a : α} (known : ∀ other, lookup a ≠ .error (.classNotFound other))
    (more : List α) : firstHit lookup name (a :: more) = lookup a := by
  cases found : lookup a with
  | ok result => simp [firstHit, found]
  | error fault =>
    have other : fault.isNotFound = false := by
      cases fault with
      | classNotFound other => exact absurd found (known other)
      | badClass | file | entry | closed => rfl
    simp [firstHit, found, other]

/-- What is found one after another is found by one of the lookups. -/
theorem exists_of_firstHit {items : List α} {found : Found} (h : firstHit lookup name items = .ok found) :
    ∃ a ∈ items, lookup a = .ok found := by
  induction items with
  | nil => cases h
  | cons a more ih =>
    rw [firstHit] at h
    split at h
    · rename_i here
      cases h
      exact ⟨a, by simp, here⟩
    · split at h
      · obtain ⟨other, mem, there⟩ := ih h
        exact ⟨other, by simp [mem], there⟩
      · cases h

end FirstHit

/-! ### Sources -/

/-- An archive in which only the path of a class stands for it. -/
def Archive.Fair (a : Archive) (name : String) : Prop :=
  ∀ member ∈ a.names, metaLead.isPrefixOf member.toList = false →
    className? member.toList = some name → member.toList = classPath name

/-- What is in an archive for a class that it lists. -/
theorem Archive.Fair.lastMember {a : Archive} {name : String} (fair : a.Fair name)
    (mem : name ∈ a.classNames) :
    ∃ member ∈ a.entries, member.name.toList = classPath name ∧
      a.entry? (String.ofList (classPath name)) = some member := by
  obtain ⟨text, inNames, stands⟩ : ∃ text ∈ a.names, metaLead.isPrefixOf text.toList = false ∧
      className? text.toList = some name := by
    simpa [classNames, List.mem_mergeSort, List.mem_filterMap, and_assoc] using mem
  have path := fair text inNames stands.1 stands.2
  obtain ⟨member, inEntries, rfl⟩ := List.mem_map.1 inNames
  have there : (a.entries.reverse.find? (·.name == String.ofList (classPath name))).isSome := by
    rw [List.find?_isSome]
    exact ⟨member, by simpa using inEntries, by simp [← path]⟩
  obtain ⟨last, found⟩ := Option.isSome_iff_exists.1 there
  have same := List.find?_some found
  refine ⟨last, by simpa using List.mem_of_find?_eq_some found, ?_, found⟩
  simpa using congrArg String.toList (beq_iff_eq.1 same)

namespace Source

/-- The directories that a source looks into. -/
def roots : Source → List Path
  | .directory root => [root]
  | .image _ roots => roots
  | .archive .. | .signatureFile .. => []

/-- A source that turns the name of a class into the path of the files that it was listed for. A module image
asks no further than the first module that lists the class. -/
def Fair (fs : FileSystem) (name : String) : Source → Prop
  | .directory root => ClassDirectory.Fair fs root name
  | .archive _ contents _ => ∀ a, contents = some a → a.Fair name
  | .image _ roots => ∀ root ∈ upToFirst (ClassDirectory.lists fs · name) roots, ClassDirectory.Fair fs root name
  | .signatureFile .. => True

/-- What a source was opened with: it offers these names. -/
inductive Offers (fs : FileSystem) : Source → List String → Prop
  | directory {root names} (listed : ClassDirectory.names fs root = .ok names) :
    Offers fs (.directory root) names
  | archive (path : Path) (a : Archive) : Offers fs (.archive path (some a) a.classNames) a.classNames
  | image {extracted roots names} (listed : Loaded.namesIn fs roots = .ok names) :
    Offers fs (.image extracted roots) names
  | signatureFile (classes : List ClassDescription) (modules : List ModuleDescription) :
    Offers fs (.signatureFile classes modules) (classes.map (·.name))

/-- What a source listed the name of a class for, and what reading it gives: the file at the path of the
class, the last member of an archive with this path, the file in the first module that lists the class, or
the description of this name. -/
inductive Origin (fs : FileSystem) (name : String) : Source → Except LookupFault Found → Prop
  | directory {root node bytes} (found : fs.find root = .ok node)
      (listed : (classWay name, bytes) ∈ node.files) :
    Origin fs name (.directory root) (.ok (.bytecode bytes))
  | archive {path a present} {member : Archive.Entry} (listed : member ∈ a.entries)
      (stands : member.name.toList = classPath name) (last : a.entry? member.name = some member) :
    Origin fs name (.archive path (some a) present)
      (((a.contents member).mapError LookupFault.entry).map Found.bytecode)
  | image {extracted before root after result}
      (others : ∀ other ∈ before, ClassDirectory.lists fs other name = false)
      (first : Origin fs name (.directory root) result) :
    Origin fs name (.image extracted (before ++ root :: after)) result
  | signatureFile {classes modules} {c : ClassDescription} (listed : c ∈ classes) (named : c.name = name) :
    Origin fs name (.signatureFile classes modules) (.ok (.description c))

/-- Whatever is read where a class was listed, it is not that the class is not there. -/
theorem Origin.known {fs : FileSystem} {name : String} {s : Source} {result : Except LookupFault Found}
    (origin : Origin fs name s result) (other : String) : result ≠ .error (.classNotFound other) := by
  induction origin with
  | directory | signatureFile => simp
  | @archive path a present member listed stands last =>
    cases a.contents member <;> simp [Except.mapError, Except.map]
  | image others first ih => exact ih

/-- Modules one after another: the first one that lists a class has it, and where none does it is not there. -/
theorem find_roots {fs : FileSystem} {name : String} (tree : fs.root.Proper) {roots : List Path}
    {listed : List String} (offered : Loaded.namesIn fs roots = .ok listed)
    (fair : ∀ root ∈ upToFirst (ClassDirectory.lists fs · name) roots, ClassDirectory.Fair fs root name) :
    (name ∉ listed → firstHit (fun root => ClassDirectory.find fs root name) name roots =
      .error (.classNotFound name)) ∧
    (name ∈ listed → ∀ extracted, Origin fs name (.image extracted roots)
      (firstHit (fun root => ClassDirectory.find fs root name) name roots)) := by
  induction roots generalizing listed with
  | nil =>
    obtain rfl : [] = listed := by simpa [Loaded.namesIn] using offered
    simp [firstHit]
  | cons root more ih =>
    simp only [Loaded.namesIn] at offered
    cases own : ClassDirectory.names fs root with
    | error fault => simp [own] at offered
    | ok names =>
      cases others : Loaded.namesIn fs more with
      | error fault => simp [own, others] at offered
      | ok rest =>
        obtain rfl : names ++ rest = listed := by simpa [own, others] using offered
        have lists : ClassDirectory.lists fs root name = names.contains name := by
          simp [ClassDirectory.lists, own]
        have first : ClassDirectory.Fair fs root name := fair root (by
          unfold upToFirst
          split <;> simp)
        by_cases mem : name ∈ names
        · obtain ⟨node, bytes, found, inFiles, gives⟩ := first.find_of_mem tree own mem
          refine ⟨fun absent => absurd (List.mem_append_left rest mem) absent, fun _ extracted => ?_⟩
          rw [firstHit_cons_of_known _ (by simp [gives]), gives]
          have origin : Origin fs name (.image extracted ([] ++ root :: more)) _ :=
            .image (by simp) (.directory found inFiles)
          exact origin
        · have gives := first.find_of_notMem tree own mem
          have behind := ih others fun other inMore => fair other (by
            simp [upToFirst, lists, mem, inMore])
          have passes : firstHit (fun root => ClassDirectory.find fs root name) name (root :: more) =
              firstHit (fun root => ClassDirectory.find fs root name) name more :=
            firstHit_cons_of_notFound (fun root => ClassDirectory.find fs root name) gives more
          rw [passes]
          refine ⟨fun absent => behind.1 fun inRest => absent (List.mem_append_right names inRest), ?_⟩
          intro inListed extracted
          have inRest := (List.mem_append.1 inListed).resolve_left mem
          generalize firstHit (fun root => ClassDirectory.find fs root name) name more = result at behind
          cases behind.2 inRest extracted with
          | @image _ before first after _ passed origin =>
            have passed' : ∀ other ∈ root :: before, ClassDirectory.lists fs other name = false := by
              intro other inBefore
              rcases List.mem_cons.1 inBefore with rfl | inBefore
              · simp [lists, mem]
              · exact passed other inBefore
            have origin' : Origin fs name (.image extracted ((root :: before) ++ first :: after)) _ :=
              .image passed' origin
            exact origin'

/-- A source gives what it listed a name for, and of other names it knows no more than that they are not
there. -/
theorem Offers.find {fs : FileSystem} {name : String} {s : Source} {listed : List String}
    (offers : Offers fs s listed) (tree : fs.root.Proper) (fair : s.Fair fs name) :
    (name ∉ listed → s.find fs name = .error (.classNotFound name)) ∧
      (name ∈ listed → Origin fs name s (s.find fs name)) := by
  cases offers with
  | directory offered =>
    refine ⟨fair.find_of_notMem tree offered, fun mem => ?_⟩
    obtain ⟨node, bytes, found, inFiles, gives⟩ := fair.find_of_mem tree offered mem
    rw [Source.find, gives]
    exact .directory found inFiles
  | archive path a =>
    refine ⟨fun absent => by simp [Source.find, absent], fun mem => ?_⟩
    obtain ⟨member, inEntries, stands, last⟩ := (fair a rfl).lastMember mem
    have gives : Source.find (.archive path (some a) a.classNames) fs name =
        ((a.contents member).mapError LookupFault.entry).map Found.bytecode := by
      simp only [Source.find, List.contains_iff_mem, mem, if_true, Archive.readOpen, Archive.read, last]
      cases a.contents member <;> rfl
    rw [gives]
    exact .archive inEntries stands (by rw [← stands, String.ofList_toList] at last; exact last)
  | image offered =>
    have both := find_roots tree offered fair
    exact ⟨both.1, fun mem => both.2 mem _⟩
  | signatureFile classes modules =>
    constructor
    · intro absent
      have none : classes.find? (·.name == name) = none := by
        rw [List.find?_eq_none]
        intro c inClasses same
        exact absent (List.mem_map.2 ⟨c, inClasses, beq_iff_eq.1 same⟩)
      simp [Source.find, none]
    · intro mem
      obtain ⟨c, inClasses, named⟩ := List.mem_map.1 mem
      have there : (classes.find? (·.name == name)).isSome := by
        rw [List.find?_isSome]
        exact ⟨c, inClasses, by simp [named]⟩
      obtain ⟨first, found⟩ := Option.isSome_iff_exists.1 there
      have same : first.name = name := by simpa using List.find?_some found
      rw [Source.find, found]
      exact .signatureFile (List.mem_of_find?_eq_some found) same

end Source
end ApiSurface
