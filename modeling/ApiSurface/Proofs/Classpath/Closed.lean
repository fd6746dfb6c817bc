import ApiSurface.Proofs.Classpath.Names

/-!
Class paths that were closed. Closing takes the names from every entry and the contents from archives, module
images and signature files; a directory keeps its root and looks into the files as before. Main statement:
whatever is done before and after, a class path that was closed gives out no names, and what it still finds,
describes or lists as a module comes from one of its directories (`answers_of_isClosed`), so without directories
there is nothing.
-/

namespace ApiSurface

/-! ### Sources -/

namespace Source

/-- The root of a directory. -/
def directoryRoot? : Source → Option Path
  | .directory root => some root
  | _ => none

/-- A source from which the contents were taken, if it has its own. -/
def Shut : Source → Prop
  | .directory _ => True
  | .archive _ contents _ => contents = none
  | .image _ roots => roots = []
  | .signatureFile classes modules => classes = [] ∧ modules = []

theorem shut_close (s : Source) (fs : FileSystem) : (s.close fs).1.Shut := by
  cases s with
  | directory => exact trivial
  | archive | image => rfl
  | signatureFile => exact ⟨rfl, rfl⟩

/-- A directory stays the directory that it is when it is closed. -/
theorem directoryRoot?_close (s : Source) (fs : FileSystem) :
    (s.close fs).1.directoryRoot? = s.directoryRoot? := by
  cases s <;> rfl

variable {s : Source} {fs : FileSystem}

/-- What a source finds that was closed is a file in a directory. -/
theorem Shut.of_find (shut : s.Shut) {name : String} {found : Found} (h : s.find fs name = .ok found) :
    ∃ root, s.directoryRoot? = some root ∧ ClassDirectory.find fs root name = .ok found := by
  cases s with
  | directory root => exact ⟨root, rfl, h⟩
  | archive path contents present =>
    obtain rfl : contents = none := shut
    simp only [find, Archive.readOpen] at h
    split at h <;> cases h
  | image extracted roots =>
    obtain rfl : roots = [] := shut
    cases h
  | signatureFile classes modules =>
    obtain ⟨rfl, rfl⟩ : classes = [] ∧ modules = [] := shut
    cases h

/-- The modules of a source that was closed are described in a directory. -/
theorem Shut.of_modules (shut : s.Shut) {ms : List ModuleDescription} (h : s.modules fs = .ok ms)
    {m : ModuleDescription} (mem : m ∈ ms) :
    ∃ root, s.directoryRoot? = some root ∧ ClassDirectory.module? fs root = .ok (some m) := by
  cases s with
  | directory root =>
    refine ⟨root, rfl, ?_⟩
    simp only [modules] at h
    cases there : ClassDirectory.module? fs root with
    | error fault => simp [there, Except.map] at h
    | ok described =>
      simp only [there, Except.map, Except.ok.injEq] at h
      rw [← h, Option.mem_toList] at mem
      rw [mem]
  | archive path contents present =>
    obtain rfl : contents = none := shut
    cases h
  | image extracted roots =>
    obtain rfl : roots = [] := shut
    cases h
    cases mem
  | signatureFile classes modules =>
    obtain ⟨rfl, rfl⟩ : classes = [] ∧ modules = [] := shut
    cases h
    cases mem

end Source

namespace Classpath

/-! ### Operations -/

/-- A class path after any operations. Lookups are left out, as they leave it as it is. -/
inductive Operated (cp : Classpath) : Classpath → Prop
  | start : Operated cp cp
  | next {before after name} (operated : Operated cp before) (given : before.next? = some (name, after)) :
    Operated cp after
  | rewind {before} (operated : Operated cp before) : Operated cp before.rewind
  | close {before} (operated : Operated cp before) (fs : FileSystem) : Operated cp (before.close fs).1

/-- The roots of the directories on a class path. -/
def directoryRoots (cp : Classpath) : List Path := cp.entries.filterMap fun e => e.source.directoryRoot?

/-- A class path all of whose entries were closed. -/
structure Shut (cp : Classpath) : Prop where
  isClosed : cp.isClosed = true
  sources : ∀ e ∈ cp.entries, e.source.Shut

/-- Entries are closed one by one, and directories stay what they are. -/
theorem closeEntries_spec (entries : List Entry) (fs : FileSystem) :
    (∀ e ∈ (closeEntries entries fs).1, e.source.Shut) ∧
      (closeEntries entries fs).1.map (fun e => e.source.directoryRoot?) =
        entries.map fun e => e.source.directoryRoot? := by
  induction entries generalizing fs with
  | nil => exact ⟨fun _ mem => absurd mem (by simp [closeEntries]), rfl⟩
  | cons e more ih =>
    obtain ⟨shut, same⟩ := ih (e.close fs).2
    refine ⟨fun other mem => ?_, ?_⟩
    · rcases List.mem_cons.1 mem with rfl | mem
      · exact Source.shut_close e.source fs
      · exact shut other mem
    · have first : (e.close fs).1.source.directoryRoot? = e.source.directoryRoot? :=
        Source.directoryRoot?_close e.source fs
      simp only [closeEntries, List.map_cons, same, first]

/-- An open class path is shut once it was closed. -/
theorem shut_close {cp : Classpath} (isOpen : cp.isClosed = false) (fs : FileSystem) : (cp.close fs).1.Shut := by
  simp only [close, isOpen, Bool.false_eq_true, if_false]
  exact ⟨rfl, (closeEntries_spec cp.entries fs).1⟩

theorem directoryRoots_eq (cp : Classpath) :
    cp.directoryRoots = (cp.entries.map fun e => e.source.directoryRoot?).reduceOption := by
  rw [directoryRoots, List.reduceOption, List.filterMap_map]
  rfl

theorem directoryRoots_close (cp : Classpath) (fs : FileSystem) :
    (cp.close fs).1.directoryRoots = cp.directoryRoots := by
  unfold close
  split
  · rfl
  · rw [directoryRoots_eq, directoryRoots_eq]
    simp only [(closeEntries_spec cp.entries fs).2]

/-- Faces of entries decide which directories there are. -/
theorem directoryRoots_congr {a b : Classpath} (same : a.entries.map face = b.entries.map face) :
    a.directoryRoots = b.directoryRoots := by
  have roots := congrArg (List.filterMap fun f => f.1.directoryRoot?) same
  rw [List.filterMap_map, List.filterMap_map] at roots
  exact roots

/-- Operations keep the directories. -/
theorem Operated.directoryRoots {cp after : Classpath} (operated : Operated cp after) :
    after.directoryRoots = cp.directoryRoots := by
  induction operated with
  | start => rfl
  | next _ given ih => exact (directoryRoots_congr (next?_spec given).1).trans ih
  | rewind _ ih => exact (directoryRoots_congr (Walked.rewind .start).faces).trans ih
  | close _ fs ih => exact (directoryRoots_close _ fs).trans ih

/-- A class path that was closed gives out no names. -/
theorem Shut.next? {cp : Classpath} (shut : cp.Shut) : cp.next? = none := by
  simp [Classpath.next?, shut.isClosed]

/-- A class path that was closed stays so. -/
theorem Operated.shut {cp after : Classpath} (shut : cp.Shut) (operated : Operated cp after) : after.Shut := by
  induction operated with
  | start => exact shut
  | next _ given ih =>
    rw [ih.next?] at given
    cases given
  | rewind _ ih =>
    refine ⟨ih.isClosed, fun e mem => ?_⟩
    obtain ⟨old, inEntries, rfl⟩ := List.mem_map.1 mem
    exact ih.sources old inEntries
  | close _ fs ih =>
    simp only [Classpath.close, ih.isClosed, if_true]
    exact ih

/-- A class path is open or all its entries were closed. -/
theorem Operated.open_or_shut {cp after : Classpath} (isOpen : cp.isClosed = false)
    (operated : Operated cp after) : after.isClosed = false ∨ after.Shut := by
  induction operated with
  | start => exact .inl isOpen
  | next operated given ih =>
    rcases ih with isOpen | shut
    · exact .inl ((Walked.next .start given).names.2.trans isOpen)
    · exact .inr (Operated.shut shut (.next .start given))
  | rewind _ ih =>
    rcases ih with isOpen | shut
    · exact .inl isOpen
    · exact .inr (Operated.shut shut (.rewind .start))
  | close _ fs ih =>
    rcases ih with isOpen | shut
    · exact .inr (shut_close isOpen fs)
    · exact .inr (Operated.shut shut (.close .start fs))

/-! ### Answers -/

namespace Shut

variable {cp : Classpath} {fs : FileSystem} {name : String}

/-- What a class path finds that was closed is a file in one of its directories. -/
theorem of_find (shut : cp.Shut) {found : Found} (h : cp.find fs name = .ok found) :
    ∃ root ∈ cp.directoryRoots, ClassDirectory.find fs root name = .ok found := by
  obtain ⟨e, mem, there⟩ := exists_of_firstHit _ h
  obtain ⟨root, isRoot, inDirectory⟩ := (shut.sources e mem).of_find there
  exact ⟨root, List.mem_filterMap.2 ⟨e, mem, isRoot⟩, inDirectory⟩

theorem of_modulesOf {entries : List Entry} (shut : ∀ e ∈ entries, e.source.Shut)
    {ms : List ModuleDescription} (h : modulesOf fs entries = .ok ms) {m : ModuleDescription} (mem : m ∈ ms) :
    ∃ e ∈ entries, ∃ root, e.source.directoryRoot? = some root ∧
      ClassDirectory.module? fs root = .ok (some m) := by
  induction entries generalizing ms with
  | nil =>
    cases h
    cases mem
  | cons e more ih =>
    rw [modulesOf] at h
    split at h
    · cases h
    · rename_i own here
      split at h
      · cases h
      · rename_i others there
        cases h
        rcases List.mem_append.1 mem with first | later
        · obtain ⟨root, isRoot, described⟩ := (shut e (by simp)).of_modules here first
          exact ⟨e, by simp, root, isRoot, described⟩
        · obtain ⟨other, inMore, rest⟩ := ih (fun other mem => shut other (by simp [mem])) there later
          exact ⟨other, by simp [inMore], rest⟩

theorem mem_of_mem_firstModules {ms : List ModuleDescription} {m : ModuleDescription}
    (h : m ∈ firstModules ms) : m ∈ ms := by
  induction ms with
  | nil => cases h
  | cons first more ih =>
    rcases List.mem_cons.1 h with rfl | later
    · simp
    · exact List.mem_cons_of_mem _ (ih (List.mem_filter.1 later).1)

/-- The modules of a class path that was closed are described in its directories. -/
theorem of_modules (shut : cp.Shut) {ms : List ModuleDescription} (h : cp.modules fs = .ok ms)
    {m : ModuleDescription} (mem : m ∈ ms) :
    ∃ root ∈ cp.directoryRoots, ClassDirectory.module? fs root = .ok (some m) := by
  unfold modules at h
  cases all : modulesOf fs cp.entries with
  | error fault => simp [all, Except.map] at h
  | ok described =>
    simp only [all, Except.map, Except.ok.injEq] at h
    rw [← h] at mem
    obtain ⟨e, inEntries, root, isRoot, there⟩ := of_modulesOf shut.sources all (mem_of_mem_firstModules mem)
    exact ⟨root, List.mem_filterMap.2 ⟨e, inEntries, isRoot⟩, there⟩

end Shut

/-- **A class path that was closed answers from its directories only.** Whatever was done before it was closed
and after, no name is given out. What is found, described or known to be present under a name is a file at the
path of the class in a directory of the class path, and a module is one that such a directory describes. -/
theorem answers_of_isClosed {cp before after : Classpath} {fs : FileSystem} (isOpen : cp.isClosed = false)
    (operated : Operated cp before) (later : Operated (before.close fs).1 after) :
    (after.next? = none ∧ after.hasNext = false) ∧
    ∀ files name,
      (∀ found, after.find files name = .ok found →
        ∃ root ∈ cp.directoryRoots, ClassDirectory.find files root name = .ok found) ∧
      (∀ c, after.describe files name = .ok c → ∃ root ∈ cp.directoryRoots, ∃ bytes,
        ClassDirectory.find files root name = .ok (.bytecode bytes) ∧ ClassFile.parse bytes = .ok c) ∧
      (after.presence files name ≠ .notFound →
        ∃ root ∈ cp.directoryRoots, ∃ found, ClassDirectory.find files root name = .ok found) ∧
      (∀ ms, after.modules files = .ok ms →
        ∀ m ∈ ms, ∃ root ∈ cp.directoryRoots, ClassDirectory.module? files root = .ok (some m)) := by
  have shut : after.Shut := by
    refine later.shut ?_
    rcases operated.open_or_shut isOpen with isOpen | shut
    · exact shut_close isOpen fs
    · exact Operated.shut shut (.close .start fs)
  have roots : after.directoryRoots = cp.directoryRoots :=
    later.directoryRoots.trans ((directoryRoots_close before fs).trans operated.directoryRoots)
  rw [← roots]
  have none : after.next? = none := Shut.next? shut
  have flag : after.hasNext = false := by simp [hasNext, shut.isClosed]
  refine ⟨⟨none, flag⟩, fun files name => ⟨fun found => shut.of_find,
    fun c described => ?_, fun known => ?_, fun ms listed m mem => shut.of_modules listed mem⟩⟩
  · unfold describe at described
    split at described
    · rename_i found there
      obtain ⟨root, mem, inDirectory⟩ := shut.of_find there
      obtain ⟨bytes, read, rfl⟩ := ClassDirectory.find_eq_ok_iff.1 inDirectory
      refine ⟨root, mem, bytes, inDirectory, ?_⟩
      cases parsed : ClassFile.parse bytes with
      | error bad => simp [Found.describe, parsed, Except.mapError] at described
      | ok c' =>
        simp only [Found.describe, parsed, Except.mapError, Except.ok.injEq] at described
        rw [described]
    · cases described
  · unfold presence at known
    split at known
    · exact absurd rfl known
    · rename_i found there
      obtain ⟨root, mem, inDirectory⟩ := shut.of_find there
      exact ⟨root, mem, found, inDirectory⟩

/-- Two directories that were closed and taken back to their beginning give out no names, and whatever is found
in them is a file in one of them. -/
theorem answers_of_isClosed_twoDirectories :
    ((openAll .usual "one:two".toList twoDirectories).1.close twoDirectories).1.rewind.next? = none ∧
      ∀ found, ((openAll .usual "one:two".toList twoDirectories).1.close twoDirectories).1.rewind.find
        twoDirectories "a.C" = .ok found →
          ∃ root ∈ ["one".toList, "two".toList], ClassDirectory.find twoDirectories root "a.C" = .ok found :=
  have later : Operated ((openAll .usual "one:two".toList twoDirectories).1.close twoDirectories).1
      ((openAll .usual "one:two".toList twoDirectories).1.close twoDirectories).1.rewind := .rewind .start
  have answers := answers_of_isClosed (isClosed_openAll .usual "one:two".toList twoDirectories) .start later
  ⟨answers.1.1, (answers.2 twoDirectories "a.C").1⟩

/-- A directory that was closed still has its classes. -/
theorem find_closed_twoDirectories :
    ((openAll .usual "one:two".toList twoDirectories).1.close twoDirectories).1.find twoDirectories "a.B" =
        .ok (.bytecode [1]) ∧
      ((openAll .usual "one:two".toList twoDirectories).1.close twoDirectories).1.presence twoDirectories "a.B" ≠
        .notFound := by
  have found : ((openAll .usual "one:two".toList twoDirectories).1.close twoDirectories).1.find twoDirectories "a.B" =
      .ok (.bytecode [1]) := rfl
  refine ⟨found, ?_⟩
  unfold presence
  rw [found]
  dsimp only
  split <;> simp

end Classpath
end ApiSurface
