import ApiSurface.Proofs.Classpath.Capture
import ApiSurface.Proofs.Classpath.Closed
import ApiSurface.Proofs.Classpath.Enumeration
import ApiSurface.Proofs.Classpath.Opening

/-!
The account of a capture that came to its end: which names were given out, what became of each of them, and what
stands in the text. Main statement: a class path that was opened, in whatever state it is, has its names captured
once each in their order, and the text is the header, the blocks of the modules and the blocks of the classes that
can be described, each as it is written on its own (`account_of_capture`).
-/

namespace ApiSurface.Classpath

variable {cp : Classpath}

/-! ### Class paths that were opened -/

/-- Operations that leave a class path open keep its names. -/
theorem Operated.names {after : Classpath} (operated : Operated cp after) (isOpen : after.isClosed = false) :
    after.names = cp.names := by
  induction operated with
  | start => rfl
  | next _ given ih =>
    obtain ⟨same, stays⟩ := (Walked.next .start given).names
    exact same.trans (ih (stays.symm.trans isOpen))
  | rewind _ ih => exact (names_rewind _).trans (ih isOpen)
  | @close before _ fs ih =>
    unfold Classpath.close at isOpen
    split at isOpen
    · rename_i closed
      rw [closed] at isOpen
      cases isOpen
    · cases isOpen

/-- A class path that was opened strictly is the one of all its elements. -/
theorem openAll_of_openStrict {settings : Settings} {text : List Char} {fs : FileSystem}
    (opened : (openStrict settings text fs).1 = .ok cp) : (openAll settings text fs).1 = cp := by
  rw [openStrict, openStrictFrom_eq] at opened
  split at opened
  · cases opened
  · exact Except.ok.inj opened

/-! ### Accounts -/

/-- Every name is described or noted. -/
theorem length_described_add (cp : Classpath) (fs : FileSystem) (names : List String) :
    (cp.described fs names).length + (cp.undescribed fs names).length = names.length := by
  induction names with
  | nil => rfl
  | cons name names ih =>
    cases result : cp.describe fs name with
    | ok d =>
      rw [(described_cons_ok result names).1, (described_cons_ok result names).2, List.length_cons, List.length_cons]
      omega
    | error fault =>
      rw [(described_cons_error result names).1, (described_cons_error result names).2, List.length_cons,
        List.length_cons]
      omega

/-- The account of a capture that came to its end. -/
structure Account (cp : Classpath) (fs : FileSystem) (w : Writer) (c : Capture) : Prop where
  /-- The names are given out from the beginning, and then there are no more. -/
  given : cp.rewind.Gives cp.enumerable c.classpath
  ended : c.classpath.next? = none
  /-- What is left out is the modules, if they should be written and are not known, and each name without a
  description. -/
  skipped : c.snapshot.skipped = cp.unknownModules fs w ++ cp.undescribed fs cp.enumerable
  counted : c.snapshot.classesWritten + (cp.undescribed fs cp.enumerable).length = cp.enumerable.length
  modulesWritten : c.snapshot.modulesWritten = (cp.givenModules fs w).length
  /-- Each block is what is written of it on its own behind the header. -/
  text : c.text = w.writeHeader.1 ++ w.writeHeader.2.blocks (cp.captured fs w)

/-- **A capture accounts for every name.** Whatever was done with a class path that was opened, strictly or not,
its names are given out in their order, each once, or not at all if it was closed. A capture comes to its end
exactly if everything that it writes can be written. Then each name was given out and was written or noted with
its fault, and the text behind the header is that of the modules and of the classes that can be described, each as
it is written on its own, so that a class without a description changes nothing in the blocks of the others. -/
theorem account_of_capture {settings : Settings} {path : List Char} {before fs : FileSystem} {start cp : Classpath}
    (opened : (openAll settings path before).1 = start ∨ (openStrict settings path before).1 = .ok start)
    (operated : Operated start cp) (w : Writer) :
    cp.enumerable.Nodup ∧ (cp.isClosed = false → cp.enumerable = start.names) ∧
      ((cp.capture fs w).1 = .ok () ↔ ∀ d ∈ cp.captured fs w, w.writeHeader.2.Takes d) ∧
      ∀ c, cp.capture fs w = (.ok (), c) → cp.Account fs w c := by
  have found : (openAll settings path before).1 = start := opened.elim id openAll_of_openStrict
  have whole (isOpen : cp.isClosed = false) : cp.enumerable = start.names := by
    rw [enumerable, isOpen, ← operated.names isOpen]
    rfl
  refine ⟨?_, whole, ⟨fun ran => ?_, fun takes => ?_⟩, fun c ran => ?_⟩
  · cases closed : cp.isClosed with
    | false =>
      rw [whole closed, ← found]
      exact nodup_names settings path before
    | true =>
      rw [enumerable, closed]
      exact List.nodup_nil
  · exact (capture_eq_ok_iff.1 (Prod.ext ran rfl)).1
  · obtain ⟨last, gives, ended⟩ := cp.exists_gives_enumerable
    rw [capture_eq_ok_iff.2 ⟨takes, last, gives, ended, rfl⟩]
  · obtain ⟨-, last, gives, ended, rfl⟩ := capture_eq_ok_iff.1 ran
    exact ⟨gives, ended, rfl, length_described_add cp fs cp.enumerable, rfl, rfl⟩

/-- A directory with bytes that are no class, and a signature file with a class. -/
def brokenAndOld : FileSystem :=
  let text := "#Signature file v4.3\nversion 1\n\nCLSS public a.B\nFLD public int count\n\n"
  ⟨.directory [("broken".toList, .directory [("a".toList, .directory [("C.class".toList, .file [1] false)])]),
    ("old.sig".toList, .file (text.toList.flatMap String.utf8EncodeChar) false)], [], []⟩

/-- A class path that has given out its first name is captured from its beginning: one class is left out and the
other one is written. -/
theorem account_of_capture_brokenAndOld : ∃ start cp c,
    openAll .usual "broken:old.sig".toList brokenAndOld = (start, brokenAndOld) ∧
      start.next? = some ("a.C", cp) ∧ cp.capture brokenAndOld (.ofFormat .v43) = (.ok (), c) ∧
      cp.enumerable = ["a.C", "a.B"] ∧ c.snapshot.classesWritten = 1 ∧
      cp.Account brokenAndOld (.ofFormat .v43) c := by
  let start := (openAll .usual "broken:old.sig".toList brokenAndOld).1
  let cp := (start.next?.map Prod.snd).getD start
  have first : start.next?.map Prod.fst = some "a.C" := by decide +kernel
  have given : start.next? = some ("a.C", cp) := by
    obtain ⟨⟨name, after⟩, found, rfl⟩ := Option.map_eq_some_iff.1 first
    simp [cp, found]
  have ran : (cp.capture brokenAndOld (.ofFormat .v43)).1 = .ok () := by decide +kernel
  have one : (cp.capture brokenAndOld (.ofFormat .v43)).2.snapshot.classesWritten = 1 := by decide +kernel
  have names : cp.enumerable = ["a.C", "a.B"] := by decide +kernel
  obtain ⟨-, -, -, account⟩ := account_of_capture (.inl rfl) (.next .start given) (.ofFormat .v43)
  exact ⟨start, cp, _, rfl, given, Prod.ext ran rfl, names, one, account _ (Prod.ext ran rfl)⟩

end ApiSurface.Classpath
