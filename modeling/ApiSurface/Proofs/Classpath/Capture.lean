import ApiSurface.Proofs.Classpath.Names
import ApiSurface.Proofs.SignatureFile.ReadBack
import ApiSurface.Snapshot

/-!
What is written when a class path is captured. A step of a capture comes to its end exactly if what it writes can be
written (`captureModules_eq_ok_iff`, `captureClasses_of_ok`, `captureClasses_of_takes`). Main statements: a capture
comes to its end exactly if everything that it writes can be written on its own, with all names given out
(`capture_eq_ok_iff`), and then its text is the text of a file of the modules and of the classes that can be
described, in the order in which the class path gives out its names (`capture_eq`).
-/

namespace ApiSurface

namespace Writer

/-- Behind the header each block is written on its own. -/
theorem writeClass_of_headerWritten {w : Writer} (written : w.headerWritten = true) (c : ClassDescription) :
    w.writeClass c = match w.block c with
      | .ok text => (text, .ok (), w)
      | .error m => ([], .error (.malformed m), w) := by
  cases result : w.block c <;> simp [writeClass, writeHeader_of_headerWritten written, result]

/-- A class or a module that is written, with the writer left as it is. -/
def Takes (w : Writer) (d : ClassDescription) : Prop := (w.writeClass d).2 = (.ok (), w)

/-- What is written of classes and modules, each on its own. -/
def blocks (w : Writer) (ds : List ClassDescription) : List Char := ds.flatMap fun d => (w.writeClass d).1

theorem blocks_append (w : Writer) (a b : List ClassDescription) : w.blocks (a ++ b) = w.blocks a ++ w.blocks b :=
  List.flatMap_append

/-- A file can be written exactly if each of its blocks can be written on its own behind the header. -/
theorem writeAll_eq_ok_iff {w : Writer} {ds : List ClassDescription} {text : List Char} :
    w.writeAll ds = .ok text ↔
      (∀ d ∈ ds, w.writeHeader.2.Takes d) ∧ text = w.writeHeader.1 ++ w.writeHeader.2.blocks ds := by
  have behind (d : ClassDescription) := writeClass_of_headerWritten w.headerWritten_writeHeader d
  constructor
  · intro all
    induction ds generalizing w text with
    | nil => simpa [writeAll, close, blocks, eq_comm] using all
    | cons d ds ih =>
      rw [writeAll, writeClass] at all
      cases result : w.writeHeader.2.block d with
      | error m => simp [result] at all
      | ok first =>
        simp only [result] at all
        obtain ⟨rest, later, rfl⟩ := map_eq_ok_iff.1 all
        obtain ⟨takes, rfl⟩ := ih (fun d => writeClass_of_headerWritten (headerWritten_writeHeader _) d) later
        rw [writeHeader_writeHeader] at takes
        refine ⟨List.forall_mem_cons.2 ⟨by rw [Takes, behind, result], takes⟩, ?_⟩
        simp [blocks, behind, result, writeHeader_writeHeader]
  · rintro ⟨takes, rfl⟩
    refine writeAll_eq_ok fun d mem => ?_
    have taken := takes d mem
    rw [Takes, behind] at taken
    rw [behind, ← block_writeHeader]
    cases result : w.writeHeader.2.block d with
    | ok text => rfl
    | error m => simp [result] at taken

end Writer

namespace Classpath

/-! ### What is captured -/

/-- The descriptions of classes, as far as there are any. -/
def described (cp : Classpath) (fs : FileSystem) (names : List String) : List ClassDescription :=
  names.filterMap fun name => (cp.describe fs name).toOption

theorem mem_described_iff {cp : Classpath} {fs : FileSystem} {names : List String} {d : ClassDescription} :
    d ∈ cp.described fs names ↔ ∃ name ∈ names, cp.describe fs name = .ok d := by
  simp only [described, List.mem_filterMap, toOption_eq_some_iff]

/-- The names of classes that cannot be described, and why. -/
def undescribed (cp : Classpath) (fs : FileSystem) (names : List String) : List (String × LookupFault) :=
  names.filterMap fun name =>
    match cp.describe fs name with
    | .ok _ => none
    | .error fault => some (name, fault)

/-- The modules that a writer is given. -/
def givenModules (cp : Classpath) (fs : FileSystem) (w : Writer) : List ModuleDescription :=
  if w.hasFeature .moduleInfo then (cp.modules fs).toOption.getD [] else []

/-- A writer is given modules that are known. -/
theorem exists_of_mem_givenModules {cp : Classpath} {fs : FileSystem} {w : Writer} {m : ModuleDescription}
    (given : m ∈ cp.givenModules fs w) : w.hasFeature .moduleInfo ∧ ∃ ms, cp.modules fs = .ok ms ∧ m ∈ ms := by
  rw [givenModules] at given
  split at given
  · rename_i on
    cases known : cp.modules fs with
    | ok ms => exact ⟨on, ms, rfl, by simpa [known, Except.toOption] using given⟩
    | error fault => simp [known, Except.toOption] at given
  · cases given

/-- What stands for the modules, if a writer should be given them and they are not known. -/
def unknownModules (cp : Classpath) (fs : FileSystem) (w : Writer) : List (String × LookupFault) :=
  match cp.modules fs with
  | .ok _ => []
  | .error fault => if w.hasFeature .moduleInfo then [(Capture.modulesName, fault)] else []

/-- Writing the header changes nothing about the modules. -/
theorem givenModules_writeHeader (cp : Classpath) (fs : FileSystem) (w : Writer) :
    cp.givenModules fs w.writeHeader.2 = cp.givenModules fs w ∧
      cp.unknownModules fs w.writeHeader.2 = cp.unknownModules fs w := by
  simp only [givenModules, unknownModules, w.hasFeature_writeHeader, and_self]

/-- What is described depends on the faces of the entries only. -/
theorem describe_congr {a b : Classpath} (same : a.entries.map face = b.entries.map face) (fs : FileSystem)
    (name : String) : a.describe fs name = b.describe fs name := by
  rw [describe, describe, find_congr same]

/-- What becomes of names depends on the faces of the entries only. -/
theorem described_congr {a b : Classpath} (same : a.entries.map face = b.entries.map face) (fs : FileSystem)
    (names : List String) :
    a.described fs names = b.described fs names ∧ a.undescribed fs names = b.undescribed fs names := by
  simp only [described, undescribed, describe_congr same fs, and_self]

/-- A class that can be described comes before the others, and nothing is noted. -/
theorem described_cons_ok {cp : Classpath} {fs : FileSystem} {name : String} {d : ClassDescription}
    (here : cp.describe fs name = .ok d) (names : List String) :
    cp.described fs (name :: names) = d :: cp.described fs names ∧
      cp.undescribed fs (name :: names) = cp.undescribed fs names := by
  simp [described, undescribed, here, Except.toOption]

/-- A class that cannot be described is noted before the others. -/
theorem described_cons_error {cp : Classpath} {fs : FileSystem} {name : String} {fault : LookupFault}
    (here : cp.describe fs name = .error fault) (names : List String) :
    cp.described fs (name :: names) = cp.described fs names ∧
      cp.undescribed fs (name :: names) = (name, fault) :: cp.undescribed fs names := by
  simp [described, undescribed, here, Except.toOption]

theorem modules_congr {a b : Classpath} (same : a.entries.map face = b.entries.map face) (fs : FileSystem) :
    a.modules fs = b.modules fs := by
  have each (entries : List Entry) : modulesOf fs entries =
      modulesOf fs ((entries.map face).map fun f => ⟨[], .empty, f.1⟩) := by
    induction entries with
    | nil => rfl
    | cons e more ih =>
      simp only [List.map_cons, modulesOf, ← ih]
      rfl
  rw [modules, modules, each, each b.entries, same]

/-! ### Names given out -/

/-- Names that a class path gives out one after another, and the class path behind them. -/
inductive Gives : Classpath → List String → Classpath → Prop
  | done (cp : Classpath) : Gives cp [] cp
  | next {cp after last : Classpath} {name : String} {names : List String} (given : cp.next? = some (name, after))
    (rest : Gives after names last) : Gives cp (name :: names) last

variable {cp last : Classpath}

/-- Names that are given out were ahead. -/
theorem Gives.ahead {names : List String} (gives : Gives cp names last) (isOpen : cp.isClosed = false) :
    cp.ahead = names ++ last.ahead ∧ last.isClosed = false := by
  induction gives with
  | done cp => exact ⟨rfl, isOpen⟩
  | next given rest ih =>
    rcases next?_cases isOpen with ⟨done, -⟩ | ⟨name, after, found, shape, stays⟩
    · rw [done] at given
      cases given
    · rw [found] at given
      cases given
      obtain ⟨later, closed⟩ := ih stays
      exact ⟨by rw [shape, later, List.cons_append], closed⟩

/-- All names ahead are given out, and then there is none. -/
theorem exists_gives_ahead (isOpen : cp.isClosed = false) : ∃ last, Gives cp cp.ahead last ∧ last.next? = none := by
  generalize shape : cp.ahead = names
  induction names generalizing cp with
  | nil =>
    rcases next?_cases isOpen with ⟨done, -⟩ | ⟨name, after, -, more, -⟩
    · exact ⟨cp, .done cp, done⟩
    · rw [shape] at more
      cases more
  | cons name names ih =>
    rcases next?_cases isOpen with ⟨-, empty⟩ | ⟨name', after, given, more, stays⟩
    · rw [shape] at empty
      cases empty
    · obtain ⟨rfl, later⟩ := List.cons_eq_cons.1 (shape.symm.trans more)
      obtain ⟨last, gives, ended⟩ := ih stays later.symm
      exact ⟨last, .next given gives, ended⟩

/-- The names that are given out from the beginning: all of them, or none if the class path was closed. -/
def enumerable (cp : Classpath) : List String := if cp.isClosed then [] else cp.names

theorem length_enumerable_le (cp : Classpath) : cp.enumerable.length ≤ cp.names.length := by
  unfold enumerable
  split <;> simp

theorem exists_gives_enumerable (cp : Classpath) :
    ∃ last, Gives cp.rewind cp.enumerable last ∧ last.next? = none := by
  unfold enumerable
  split
  · rename_i closed
    exact ⟨cp.rewind, .done _, by simp [next?, rewind, closed]⟩
  · rename_i isOpen
    rw [← ahead_rewind]
    exact exists_gives_ahead (by simpa [rewind] using isOpen)

/-- From its beginning a class path gives out what it has to give, unless it is stopped before. -/
theorem Gives.whole {names : List String} (gives : Gives cp.rewind names last)
    (stopped : names.length = cp.names.length ∨ last.next? = none) :
    names = cp.enumerable ∧ last.next? = none := by
  unfold enumerable
  cases closed : cp.isClosed with
  | true =>
    have shut : cp.rewind.isClosed = true := closed
    cases gives with
    | done => exact ⟨rfl, by simp [next?, shut]⟩
    | next given rest => simp [next?, shut] at given
  | false =>
    obtain ⟨shape, stays⟩ := gives.ahead (show cp.rewind.isClosed = false from closed)
    rw [ahead_rewind] at shape
    have ended : last.next? = none ∧ last.ahead = [] := by
      rcases next?_cases stays with none | ⟨name, after, found, more, -⟩
      · exact none
      · rcases stopped with all | none
        · have length := congrArg List.length shape
          rw [more, List.length_append, List.length_cons] at length
          omega
        · rw [none] at found
          cases found
    exact ⟨by rw [shape, ended.2, List.append_nil]; rfl, ended.1⟩

end Classpath

namespace Capture

/-! ### Steps of a capture -/

variable {fs : FileSystem} {c after : Capture}

theorem write_eq_ok_iff (written : c.writer.headerWritten = true) {d : ClassDescription} :
    c.write d = (.ok (), after) ↔
      c.writer.Takes d ∧ after = { c with text := c.text ++ (c.writer.writeClass d).1 } := by
  rw [write, Writer.Takes, Writer.writeClass_of_headerWritten written]
  cases result : c.writer.block d with
  | error m => simp
  | ok text => simp [eq_comm]

/-- Modules are written one behind the other. -/
theorem writeModules_eq_ok_iff (written : c.writer.headerWritten = true) {ms : List ModuleDescription} :
    c.writeModules ms = (.ok (), after) ↔ (∀ d ∈ ms.map .ofModule, c.writer.Takes d) ∧ after = { c with
      text := c.text ++ c.writer.blocks (ms.map .ofModule)
      snapshot := { c.snapshot with modulesWritten := c.snapshot.modulesWritten + ms.length } } := by
  induction ms generalizing c with
  | nil => simp [writeModules, Writer.blocks, eq_comm]
  | cons m ms ih =>
    rw [writeModules]
    by_cases taken : c.writer.Takes (.ofModule m)
    · rw [(write_eq_ok_iff written).2 ⟨taken, rfl⟩]
      dsimp only
      rw [ih (c := ⟨c.classpath, c.writer, c.text ++ (c.writer.writeClass (.ofModule m)).1,
        { c.snapshot with modulesWritten := c.snapshot.modulesWritten + 1 }⟩) written]
      simp [taken, Writer.blocks, Nat.add_assoc, Nat.add_comm 1]
    · have failed : ∀ next, c.write (.ofModule m) ≠ (.ok (), next) := fun next same =>
        taken ((write_eq_ok_iff written).1 same).1
      split
      · simp [taken]
      · rename_i next done
        exact absurd done (failed next)

/-- The modules that are given are written, and it is noted if they should be and are not known. -/
theorem captureModules_eq_ok_iff (written : c.writer.headerWritten = true) :
    captureModules fs c = (.ok (), after) ↔
      (∀ d ∈ (c.classpath.givenModules fs c.writer).map .ofModule, c.writer.Takes d) ∧
      after = ⟨c.classpath, c.writer, c.text ++ c.writer.blocks ((c.classpath.givenModules fs c.writer).map .ofModule),
        ⟨c.snapshot.modulesWritten + (c.classpath.givenModules fs c.writer).length, c.snapshot.classesWritten,
          c.snapshot.skipped ++ c.classpath.unknownModules fs c.writer⟩⟩ := by
  unfold captureModules Classpath.givenModules Classpath.unknownModules
  by_cases on : c.writer.hasFeature .moduleInfo
  · simp only [on, if_true]
    cases known : c.classpath.modules fs with
    | ok ms => simpa [Except.toOption] using writeModules_eq_ok_iff written
    | error fault => simp [Except.toOption, skip, Writer.blocks, eq_comm]
  · simp only [on, Bool.false_eq_true, if_false]
    cases known : c.classpath.modules fs with
    | ok ms => simpa [Writer.blocks] using eq_comm
    | error fault => simpa [Writer.blocks] using eq_comm

/-- A capture behind names that were given out: what can be described is written, and what cannot is noted. -/
def passed (c : Capture) (fs : FileSystem) (names : List String) (last : Classpath) : Capture :=
  ⟨last, c.writer, c.text ++ c.writer.blocks (c.classpath.described fs names),
    ⟨c.snapshot.modulesWritten, c.snapshot.classesWritten + (c.classpath.described fs names).length,
      c.snapshot.skipped ++ c.classpath.undescribed fs names⟩⟩

theorem passed_nil (c : Capture) (fs : FileSystem) : c.passed fs [] c.classpath = c := by
  simp [passed, Classpath.described, Classpath.undescribed, Writer.blocks]

variable {next last : Classpath} {name : String}

/-- A name without a description is noted first, and giving it out changes no other description. -/
theorem passed_cons_error (given : c.classpath.next? = some (name, next)) {fault : LookupFault}
    (here : next.describe fs name = .error fault) (names : List String) :
    c.passed fs (name :: names) last = (Capture.skip { c with classpath := next } name fault).passed fs names last := by
  have same := Classpath.described_congr (Classpath.next?_spec given).1 fs
  have shown := Classpath.described_cons_error here names
  rw [(same _).1, (same _).2] at shown
  simp [passed, skip, shown]

/-- A class with a description is written first. -/
theorem passed_cons_ok (given : c.classpath.next? = some (name, next)) {d : ClassDescription}
    (here : next.describe fs name = .ok d) (names : List String) :
    c.passed fs (name :: names) last = Capture.passed ⟨next, c.writer, c.text ++ (c.writer.writeClass d).1,
      { c.snapshot with classesWritten := c.snapshot.classesWritten + 1 }⟩ fs names last := by
  have same := Classpath.described_congr (Classpath.next?_spec given).1 fs
  have shown := Classpath.described_cons_ok here names
  rw [(same _).1, (same _).2] at shown
  simp [passed, shown, Writer.blocks, Nat.add_assoc, Nat.add_comm 1]

/-- A capture of classes that comes to its end has passed the names that were given out. -/
theorem captureClasses_of_ok {limit : Nat} (written : c.writer.headerWritten = true)
    (ran : captureClasses fs limit c = (.ok (), after)) :
    ∃ names last, c.classpath.Gives names last ∧ (names.length = limit ∨ last.next? = none) ∧
      (∀ d ∈ c.classpath.described fs names, c.writer.Takes d) ∧ after = c.passed fs names last := by
  induction limit generalizing c with
  | zero =>
    cases ran
    exact ⟨[], _, .done _, .inl rfl, by simp [Classpath.described], (passed_nil _ fs).symm⟩
  | succ limit ih =>
    rw [captureClasses] at ran
    cases given : c.classpath.next? with
    | none =>
      rw [given] at ran
      cases ran
      exact ⟨[], _, .done _, .inr given, by simp [Classpath.described], (passed_nil _ fs).symm⟩
    | some step =>
      obtain ⟨name, next⟩ := step
      rw [given] at ran
      have same := Classpath.described_congr (Classpath.next?_spec given).1 fs
      dsimp only at ran
      cases here : next.describe fs name with
      | error fault =>
        rw [here] at ran
        obtain ⟨names, last, gives, stopped, takes, rfl⟩ :=
          ih (c := Capture.skip { c with classpath := next } name fault) written ran
        refine ⟨name :: names, last, .next given gives, by simpa using stopped, ?_,
          (passed_cons_error given here names).symm⟩
        rw [← (same _).1, (Classpath.described_cons_error here names).1]
        exact takes
      | ok d =>
        rw [here] at ran
        dsimp only at ran
        cases first : (⟨next, c.writer, c.text, c.snapshot⟩ : Capture).write d with
        | mk result noted =>
          rw [first] at ran
          cases result with
          | error e => cases ran
          | ok =>
            obtain ⟨taken, rfl⟩ := (write_eq_ok_iff (c := ⟨next, c.writer, c.text, c.snapshot⟩) written).1 first
            obtain ⟨names, last, gives, stopped, takes, rfl⟩ := ih (c := ⟨next, c.writer, _,
              { c.snapshot with classesWritten := c.snapshot.classesWritten + 1 }⟩) written ran
            refine ⟨name :: names, last, .next given gives, by simpa using stopped, ?_,
              (passed_cons_ok given here names).symm⟩
            rw [← (same _).1, (Classpath.described_cons_ok here names).1]
            exact List.forall_mem_cons.2 ⟨taken, takes⟩

/-- If what can be described can be written, the names are passed as they are given out. -/
theorem captureClasses_of_takes {limit : Nat} (written : c.writer.headerWritten = true) {names : List String}
    (gives : c.classpath.Gives names last) (ended : last.next? = none) (enough : names.length ≤ limit)
    (takes : ∀ d ∈ c.classpath.described fs names, c.writer.Takes d) :
    captureClasses fs limit c = (.ok (), c.passed fs names last) := by
  induction names generalizing c limit with
  | nil =>
    cases gives
    rw [captureClasses_of_no_next ended, passed_nil]
  | cons name names ih =>
    cases gives with
    | @next _ next _ _ _ given rest =>
      obtain ⟨limit, rfl⟩ : ∃ k, limit = k + 1 := ⟨limit - 1, by simp at enough; omega⟩
      have same := Classpath.described_congr (Classpath.next?_spec given).1 fs
      rw [← (same _).1] at takes
      rw [captureClasses, given]
      dsimp only
      cases here : next.describe fs name with
      | error fault =>
        rw [(Classpath.described_cons_error here names).1] at takes
        rw [passed_cons_error given here]
        exact ih (c := Capture.skip { c with classpath := next } name fault) written rest (by simpa using enough) takes
      | ok d =>
        rw [(Classpath.described_cons_ok here names).1] at takes
        obtain ⟨taken, others⟩ := List.forall_mem_cons.1 takes
        dsimp only
        rw [passed_cons_ok given here,
          (write_eq_ok_iff (c := ⟨next, c.writer, c.text, c.snapshot⟩) written).2 ⟨taken, rfl⟩]
        exact ih (c := ⟨next, c.writer, _, _⟩) written rest (by simpa using enough) others

end Capture

namespace Classpath

open Capture

/-- What a capture writes: the modules, and the classes that can be described, in the order of their names. -/
def captured (cp : Classpath) (fs : FileSystem) (w : Writer) : List ClassDescription :=
  (cp.givenModules fs w).map .ofModule ++ cp.described fs cp.enumerable

/-- A capture comes to its end exactly if everything that it writes can be written on its own behind the header,
and the text is then made of this. All names are given out. -/
theorem capture_eq_ok_iff {cp : Classpath} {fs : FileSystem} {w : Writer} {c : Capture} :
    cp.capture fs w = (.ok (), c) ↔ (∀ d ∈ cp.captured fs w, w.writeHeader.2.Takes d) ∧
      ∃ last, cp.rewind.Gives cp.enumerable last ∧ last.next? = none ∧
        c = ⟨last, w.writeHeader.2, w.writeHeader.1 ++ w.writeHeader.2.blocks (cp.captured fs w),
          ⟨(cp.givenModules fs w).length, (cp.described fs cp.enumerable).length,
            cp.unknownModules fs w ++ cp.undescribed fs cp.enumerable⟩⟩ := by
  have written := w.headerWritten_writeHeader
  obtain ⟨given, unknown⟩ := cp.givenModules_writeHeader fs w
  have same := described_congr (Walked.rewind .start : Walked cp cp.rewind).faces fs
  -- the capture behind the modules
  let begun : Capture := ⟨cp.rewind, w.writeHeader.2,
    w.writeHeader.1 ++ w.writeHeader.2.blocks ((cp.givenModules fs w).map .ofModule),
    ⟨(cp.givenModules fs w).length, 0, cp.unknownModules fs w⟩⟩
  have passed (names : List String) (last : Classpath) : begun.passed fs names last = ⟨last, w.writeHeader.2,
      w.writeHeader.1 ++ w.writeHeader.2.blocks
        ((cp.givenModules fs w).map .ofModule ++ cp.described fs names),
      ⟨(cp.givenModules fs w).length, (cp.described fs names).length,
        cp.unknownModules fs w ++ cp.undescribed fs names⟩⟩ := by
    simp [Capture.passed, begun, same, Writer.blocks_append]
  have modules {after : Capture} : captureModules fs ⟨cp, w.writeHeader.2, w.writeHeader.1, ⟨0, 0, []⟩⟩ =
      (.ok (), after) ↔ (∀ d ∈ (cp.givenModules fs w).map .ofModule, w.writeHeader.2.Takes d) ∧
        after = { begun with classpath := cp } := by
    refine (captureModules_eq_ok_iff written).trans ?_
    simp [begun, given, unknown]
  rw [captured, List.forall_mem_append]
  constructor
  · intro ran
    unfold capture at ran
    dsimp only at ran
    split at ran
    · cases ran
    · rename_i noted first
      obtain ⟨takesModules, rfl⟩ := modules.1 first
      obtain ⟨names, last, gives, stopped, takes, rfl⟩ := captureClasses_of_ok (c := begun) written ran
      obtain ⟨rfl, ended⟩ := gives.whole stopped
      rw [(same _).1] at takes
      exact ⟨⟨takesModules, takes⟩, last, gives, ended, passed _ last⟩
  · rintro ⟨⟨takesModules, takes⟩, last, gives, ended, rfl⟩
    unfold capture
    dsimp only
    rw [modules.2 ⟨takesModules, rfl⟩, ← passed]
    rw [← (same _).1] at takes
    exact captureClasses_of_takes (c := begun) written gives ended cp.length_enumerable_le takes

/-- **The text of a capture is a file of what the class path describes**: the modules, then the classes in
the order of their names. What cannot be described is noted. -/
theorem capture_eq {cp : Classpath} {fs : FileSystem} {w : Writer} (isOpen : cp.isClosed = false)
    {text : List Char}
    (all : w.writeAll ((cp.givenModules fs w).map .ofModule ++ cp.described fs cp.names) = .ok text) :
    ∃ classpath, cp.capture fs w = (.ok (), ⟨classpath, w.writeHeader.2, text,
      ⟨(cp.givenModules fs w).length, (cp.described fs cp.names).length,
        cp.unknownModules fs w ++ cp.undescribed fs cp.names⟩⟩) := by
  have whole : cp.enumerable = cp.names := by rw [enumerable, isOpen]; rfl
  obtain ⟨takes, rfl⟩ := Writer.writeAll_eq_ok_iff.1 all
  obtain ⟨last, gives, ended⟩ := cp.exists_gives_enumerable
  rw [← whole] at takes ⊢
  exact ⟨last, capture_eq_ok_iff.2 ⟨takes, last, gives, ended, rfl⟩⟩

end Classpath
end ApiSurface
