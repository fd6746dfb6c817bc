import ApiSurface.Proofs.Classpath.Names

/-!
Elements of a class path that fail when it is opened. Such an element leaves its fault, its place among those
that were seen, and the file system as it is for the elements behind it; the last needs a word for module
images only, for which a tool was started (`Undisturbed`). Main statement: the class path is the one of the
elements that did not fail, with one fault for each that did, in their order; opening the elements that did
not fail strictly gives this class path, and opening all of them strictly gives the first fault
(`opened_without_failing`).
-/

namespace ApiSurface.Classpath

/-! ### File systems that look alike -/

/-- A relation of file systems on which every element is opened in the same way, with related ones left. -/
structure OpensAlike (settings : Settings) (R : FileSystem → FileSystem → Prop) : Prop where
  locate : ∀ {a b}, R a b → ∀ p, a.locate p = b.locate p
  kind : ∀ {a b}, R a b → ∀ p, EntryKind.ofPath? a p = EntryKind.ofPath? b p
  loaded : ∀ {a b}, R a b → ∀ kind p,
    (Loaded.ofKind kind settings a p).1 = (Loaded.ofKind kind settings b p).1 ∧
      R (Loaded.ofKind kind settings a p).2 (Loaded.ofKind kind settings b p).2

/-- No elements, however many, tell two file systems apart. -/
def Alike (settings : Settings) (a b : FileSystem) : Prop := ∃ R, OpensAlike settings R ∧ R a b

variable {settings : Settings}

theorem Alike.refl (a : FileSystem) : Alike settings a a := by
  refine ⟨Eq, ⟨?_, ?_, ?_⟩, rfl⟩ <;> rintro b c rfl
  · exact fun _ => rfl
  · exact fun _ => rfl
  · exact fun _ _ => ⟨rfl, rfl⟩

theorem Alike.trans {a b c : FileSystem} (first : Alike settings a b) (second : Alike settings b c) :
    Alike settings a c := by
  obtain ⟨R, left, ab⟩ := first
  obtain ⟨S, right, bc⟩ := second
  refine ⟨fun a c => ∃ b, R a b ∧ S b c, ⟨?_, ?_, ?_⟩, b, ab, bc⟩
  · rintro a c ⟨b, ab, bc⟩ p
    exact (left.locate ab p).trans (right.locate bc p)
  · rintro a c ⟨b, ab, bc⟩ p
    exact (left.kind ab p).trans (right.kind bc p)
  · rintro a c ⟨b, ab, bc⟩ kind p
    obtain ⟨same, after⟩ := left.loaded ab kind p
    obtain ⟨same', after'⟩ := right.loaded bc kind p
    exact ⟨same.trans same', _, after, after'⟩

/-! ### One element -/

namespace Opening

/-- An element that does not fail is there, is seen for the first time and adds its entry. -/
theorem add_eq_none {o after : Opening} {p : Path} (added : o.add settings p = (none, after)) :
    ∃ place kind e shadow files, Text.allBlank p = false ∧ o.files.locate p = .ok place ∧ place ∉ o.seen ∧
      EntryKind.ofPath? o.files p = some kind ∧
      Entry.openAt kind settings p o.classpath.shadow o.classpath.entries.length o.files =
        (.ok (e, shadow), files) ∧
      after = ⟨{ o.classpath with entries := o.classpath.entries ++ [e], shadow }, place :: o.seen, files⟩ := by
  simp only [add] at added
  split at added
  · cases added
  · rename_i filled
    split at added
    · cases added
    · rename_i place located
      split at added
      · cases added
      · rename_i fresh
        simp only [addNew] at added
        split at added
        · cases added
        · rename_i kind known
          split at added
          · cases added
          · rename_i e shadow files opened
            cases added
            exact ⟨place, kind, e, shadow, files, by simpa using filled, located, by simpa using fresh, known, opened,
              rfl⟩

/-- An element that fails forgets no place that was seen. -/
theorem seen_add_of_fault {o after : Opening} {p : Path} {fault : OpenFault}
    (failed : o.add settings p = (some fault, after)) : o.seen ⊆ after.seen := by
  simp only [add] at failed
  split at failed
  · cases failed
    exact fun _ mem => mem
  · split at failed
    · cases failed
      exact fun _ mem => mem
    · split at failed
      · cases failed
        exact fun _ mem => mem
      · simp only [addNew] at failed
        split at failed
        · cases failed
          exact List.subset_cons_self _ _
        · split at failed
          · cases failed
            exact List.subset_cons_self _ _
          · cases failed

/-- Unless a module image is extracted, an element that fails leaves the file system as it is. -/
theorem files_add_of_fault {o after : Opening} {p : Path} {fault : OpenFault}
    (failed : o.add settings p = (some fault, after)) (noImage : EntryKind.ofPath? o.files p ≠ some .image) :
    after.files = o.files := by
  have kept : (o.addOrKeep settings p).files = o.files := files_addOrKeep noImage
  rw [addOrKeep, failed] at kept
  exact kept

end Opening

/-! ### Two openings side by side -/

/-- Two openings with the same entries, of which the second has not seen more, on file systems that look
alike. -/
structure Agrees (settings : Settings) (o o' : Opening) : Prop where
  entries : o'.classpath.entries = o.classpath.entries
  shadow : o'.classpath.shadow = o.classpath.shadow
  isClosed : o'.classpath.isClosed = o.classpath.isClosed
  seen : o'.seen ⊆ o.seen
  files : Alike settings o.files o'.files

/-- What an element adds to one opening it adds to the other. -/
theorem Agrees.add {o o' after : Opening} {p : Path} (agrees : Agrees settings o o')
    (added : o.add settings p = (none, after)) :
    ∃ after', o'.add settings p = (none, after') ∧ Agrees settings after after' := by
  obtain ⟨place, kind, e, shadow, files, filled, located, fresh, known, opened, rfl⟩ := Opening.add_eq_none added
  obtain ⟨R, alike, related⟩ := agrees.files
  obtain ⟨same, left⟩ := alike.loaded related kind p
  have located' : o'.files.locate p = .ok place := (alike.locate related p).symm.trans located
  have fresh' : place ∉ o'.seen := fun mem => fresh (agrees.seen mem)
  have known' : EntryKind.ofPath? o'.files p = some kind := (alike.kind related p).symm.trans known
  -- the same source is opened, and it claims with the same number behind the same owners
  obtain ⟨files', opened', left'⟩ : ∃ files', Entry.openAt kind settings p o'.classpath.shadow
      o'.classpath.entries.length o'.files = (.ok (e, shadow), files') ∧ R files files' := by
    rw [agrees.shadow, agrees.entries]
    unfold Entry.openAt at opened ⊢
    split at opened
    · cases opened
    · rename_i loaded after first
      rw [first] at same left
      cases opened
      refine ⟨(Loaded.ofKind kind settings o'.files p).2, ?_, left⟩
      have second : Loaded.ofKind kind settings o'.files p =
          (.ok loaded, (Loaded.ofKind kind settings o'.files p).2) := Prod.ext same.symm rfl
      rw [second]
      rfl
  refine ⟨⟨{ o'.classpath with entries := o'.classpath.entries ++ [e], shadow }, place :: o'.seen, files'⟩, ?_,
    ⟨by simp [agrees.entries], rfl, agrees.isClosed, List.cons_subset_cons place agrees.seen, R, alike, left'⟩⟩
  simp [Opening.add, Opening.addNew, filled, located', fresh', known', opened']

/-- An element that fails changes nothing for the elements behind it. -/
theorem Agrees.skip {o o' after : Opening} {p : Path} {fault : OpenFault} (agrees : Agrees settings o o')
    (failed : o.add settings p = (some fault, after))
    (undisturbed : EntryKind.ofPath? o.files p = some .image → Alike settings after.files o.files) :
    Agrees settings (o.addOrKeep settings p) o' := by
  have kept := Opening.classpath_add_of_fault failed
  have seen := Opening.seen_add_of_fault failed
  have files : Alike settings after.files o.files := by
    by_cases isImage : EntryKind.ofPath? o.files p = some .image
    · exact undisturbed isImage
    · rw [Opening.files_add_of_fault failed isImage]
      exact .refl o.files
  have reached : o.addOrKeep settings p =
      { after with classpath := { o.classpath with faults := o.classpath.faults ++ [fault] } } := by
    simp only [Opening.addOrKeep, failed, kept]
  rw [reached]
  exact ⟨agrees.entries, agrees.shadow, agrees.isClosed, fun _ mem => seen (agrees.seen mem),
    files.trans agrees.files⟩

/-! ### Elements one after another -/

/-- Elements one after another, each with its fault if it fails. -/
def outcomes (settings : Settings) : Opening → List Path → List (Path × Option OpenFault)
  | _, [] => []
  | o, p :: more => (p, (o.add settings p).1) :: outcomes settings (o.addOrKeep settings p) more

/-- The elements that did not fail. -/
def working (results : List (Path × Option OpenFault)) : List Path :=
  (results.filter fun result => result.2.isNone).map Prod.fst

/-- The faults of the elements that failed. -/
def faultsOf (results : List (Path × Option OpenFault)) : List OpenFault := results.filterMap Prod.snd

/-- The file system does not change under elements that fail: where a module image cannot be used, no element
behind it tells the file system from what it was before. -/
def Undisturbed (settings : Settings) : Opening → List Path → Prop
  | _, [] => True
  | o, p :: more =>
    ((o.add settings p).1.isSome → EntryKind.ofPath? o.files p = some .image →
      Alike settings (o.add settings p).2.files o.files) ∧
    Undisturbed settings (o.addOrKeep settings p) more

theorem map_fst_outcomes (o : Opening) (ps : List Path) : (outcomes settings o ps).map Prod.fst = ps := by
  induction ps generalizing o with
  | nil => rfl
  | cons p more ih => rw [outcomes, List.map_cons, ih]

/-- One fault is kept for each element that fails, in the order of the elements. -/
theorem faults_foldl (o : Opening) (ps : List Path) :
    (ps.foldl (Opening.addOrKeep settings) o).classpath.faults =
      o.classpath.faults ++ faultsOf (outcomes settings o ps) := by
  induction ps generalizing o with
  | nil => simp [outcomes, faultsOf]
  | cons p more ih =>
    rw [List.foldl_cons, ih, outcomes]
    cases result : o.add settings p with
    | mk fault after =>
      cases fault with
      | some fault =>
        have kept := Opening.classpath_add_of_fault result
        simp [Opening.addOrKeep, result, kept, faultsOf]
      | none =>
        obtain ⟨place, kind, e, shadow, files, -, -, -, -, -, rfl⟩ := Opening.add_eq_none result
        simp [Opening.addOrKeep, result, faultsOf]

/-- Opening strictly stops at the first element that fails, and else gives the class path of all. -/
theorem openStrictFrom_eq (o : Opening) (ps : List Path) :
    (openStrictFrom settings o ps).1 =
      match (faultsOf (outcomes settings o ps)).head? with
      | some fault => .error fault
      | none => .ok (ps.foldl (Opening.addOrKeep settings) o).classpath := by
  induction ps generalizing o with
  | nil => rfl
  | cons p more ih =>
    rw [openStrictFrom, outcomes, List.foldl_cons]
    cases result : o.add settings p with
    | mk fault after =>
      cases fault with
      | some fault => simp [faultsOf]
      | none =>
        have reached : o.addOrKeep settings p = after := by simp only [Opening.addOrKeep, result]
        rw [reached]
        simpa [faultsOf] using ih after

/-- The elements that do not fail in one opening do not fail on their own in another one that agrees with it,
and what is reached agrees again. -/
theorem Agrees.working {o o' : Opening} {ps : List Path} (agrees : Agrees settings o o')
    (undisturbed : Undisturbed settings o ps) :
    Agrees settings (ps.foldl (Opening.addOrKeep settings) o)
        ((Classpath.working (outcomes settings o ps)).foldl (Opening.addOrKeep settings) o') ∧
      faultsOf (outcomes settings o' (Classpath.working (outcomes settings o ps))) = [] := by
  induction ps generalizing o o' with
  | nil => exact ⟨agrees, rfl⟩
  | cons p more ih =>
    obtain ⟨here, later⟩ := undisturbed
    rw [List.foldl_cons, outcomes]
    cases result : o.add settings p with
    | mk fault after =>
      cases fault with
      | some fault =>
        rw [result] at here
        exact ih (agrees.skip result (here rfl)) later
      | none =>
        obtain ⟨after', result', agrees'⟩ := agrees.add result
        have reached : o.addOrKeep settings p = after := by simp only [Opening.addOrKeep, result]
        have reached' : o'.addOrKeep settings p = after' := by simp only [Opening.addOrKeep, result']
        rw [reached] at later ⊢
        obtain ⟨both, clean⟩ := ih agrees' later
        have split : Classpath.working ((p, (none : Option OpenFault)) :: outcomes settings after more) =
            p :: Classpath.working (outcomes settings after more) := rfl
        rw [split, List.foldl_cons, reached', outcomes, result', reached']
        exact ⟨both, by simpa [faultsOf] using clean⟩

/-- Only module images can disturb the file system. -/
theorem undisturbed_of_noImage {o : Opening} {ps : List Path}
    (noImage : ∀ p ∈ ps, EntryKind.ofPath? o.files p ≠ some .image) : Undisturbed settings o ps := by
  induction ps generalizing o with
  | nil => exact trivial
  | cons p more ih =>
    have kept : (o.addOrKeep settings p).files = o.files := Opening.files_addOrKeep (noImage p (by simp))
    refine ⟨fun _ isImage => absurd isImage (noImage p (by simp)), ih fun q mem => ?_⟩
    rw [kept]
    exact noImage q (by simp [mem])

theorem mem_of_mem_working {o : Opening} {ps : List Path} {p : Path}
    (mem : p ∈ working (outcomes settings o ps)) : p ∈ ps := by
  obtain ⟨result, inside, rfl⟩ := List.mem_map.1 mem
  have whole : (outcomes settings o ps).map Prod.fst = ps := map_fst_outcomes o ps
  rw [← whole]
  exact List.mem_map_of_mem (List.mem_of_mem_filter inside)

/-- Elements of a class path are read back from their text, if there is one at all. -/
theorem elements_join {text : List Char} {ps : List Path} (filled : ps ≠ [])
    (among : ∀ p ∈ ps, p ∈ elements settings text) :
    elements settings (Text.join [settings.separator] ps) = ps :=
  Text.pieces_join filled fun p mem => (Text.mem_of_mem_pieces (among p mem)).1

/-- **An element that fails leaves nothing behind but its fault.** The class path of all elements has the
entries, the owners and so the names and lookups of the class path of the elements that did not fail. On these
alone opening fails nowhere and opening strictly gives the same class path. One fault is kept for each element
that failed, in their order, and opening all elements strictly gives the first of them. -/
theorem opened_without_failing {text : List Char} {fs : FileSystem}
    (undisturbed : Undisturbed settings (.start fs) (elements settings text)) :
    let results := outcomes settings (.start fs) (elements settings text)
    let cp := (openAll settings text fs).1
    let alone := (opened settings fs (working results)).classpath
    (alone.entries = cp.entries ∧ alone.shadow = cp.shadow ∧ alone.names = cp.names ∧
      ∀ files name, alone.find files name = cp.find files name) ∧
    (openStrictFrom settings (.start fs) (working results)).1 = .ok alone ∧ alone.faults = [] ∧
    (working results ≠ [] → elements settings (Text.join [settings.separator] (working results)) = working results) ∧
    results.map Prod.fst = elements settings text ∧ cp.faults = results.filterMap Prod.snd ∧
    (openStrict settings text fs).1 =
      match cp.faults.head? with
      | some fault => .error fault
      | none => .ok cp := by
  intro results cp alone
  have start : Agrees settings (.start fs) (.start fs) := ⟨rfl, rfl, rfl, fun _ mem => mem, .refl fs⟩
  obtain ⟨agrees, clean⟩ := start.working undisturbed
  have faults : cp.faults = results.filterMap Prod.snd := faults_foldl (.start fs) (elements settings text)
  have noFaults : alone.faults = [] := by
    have kept : alone.faults = faultsOf (outcomes settings (.start fs) (working results)) :=
      faults_foldl (.start fs) (working results)
    rw [kept, clean]
  have strict : (openStrictFrom settings (.start fs) (working results)).1 =
      match (faultsOf (outcomes settings (.start fs) (working results))).head? with
      | some fault => .error fault
      | none => .ok alone := openStrictFrom_eq (.start fs) (working results)
  have names : alone.names = cp.names := congrArg (List.flatMap fun e : Entry => e.listing.all) agrees.entries
  have find (files : FileSystem) (name : String) : alone.find files name = cp.find files name :=
    congrArg (firstHit (fun e : Entry => e.find files name) name) agrees.entries
  rw [clean] at strict
  refine ⟨⟨agrees.entries, agrees.shadow, names, find⟩, strict, noFaults, fun filled => ?_,
    map_fst_outcomes _ _, faults, ?_⟩
  · exact elements_join filled fun p mem => mem_of_mem_working mem
  · rw [faults]
    exact openStrictFrom_eq (.start fs) (elements settings text)

/-- Two directories between elements that fail: nothing, a path that leads nowhere, a directory that was seen, a
file of no kind, an archive that is none, and a module image that there is no place to extract to. -/
def amongFailing : FileSystem :=
  ⟨.directory [("notes.txt".toList, .file [] false), ("bad.jar".toList, .file [] false),
    ("modules".toList, .file [] false),
    ("one".toList, .directory [("a".toList, .directory [("B.class".toList, .file [1] false)])]),
    ("two".toList, .directory [("a".toList, .directory [("C.class".toList, .file [2] false)])])], [], []⟩

/-- Module images are extracted to a place that is not there. -/
def nowhere : Settings := { Settings.usual with temporary := some "gone".toList }

/-- The text of the elements. -/
def amongFailingText : List Char := ":gone:one:one/.:notes.txt:bad.jar:modules:two".toList

theorem undisturbed_amongFailing :
    Undisturbed nowhere (.start amongFailing) (elements nowhere amongFailingText) := by
  have cut : elements nowhere amongFailingText = ["".toList, "gone".toList, "one".toList, "one/.".toList,
      "notes.txt".toList, "bad.jar".toList, "modules".toList, "two".toList] := by decide
  rw [cut]
  refine ⟨fun _ isImage => ?_, fun _ isImage => ?_, fun _ isImage => ?_, fun _ isImage => ?_, fun _ isImage => ?_,
    fun _ isImage => ?_, fun _ _ => ?_, fun _ isImage => ?_, trivial⟩
  case refine_7 => exact .refl amongFailing
  all_goals exact absurd isImage (by decide +kernel)

/-- The two directories are opened as if they stood alone, and the fault of each other element is kept. -/
theorem opened_amongFailing :
    Undisturbed nowhere (.start amongFailing) (elements nowhere amongFailingText) ∧
      (openAll nowhere "one:two".toList amongFailing).1.entries =
        (openAll nowhere amongFailingText amongFailing).1.entries ∧
      (openStrict nowhere "one:two".toList amongFailing).1 =
        .ok (openAll nowhere "one:two".toList amongFailing).1 ∧
      (openAll nowhere amongFailingText amongFailing).1.faults = [.empty, .missing "gone".toList,
        .duplicate "one/.".toList, .unrecognized "notes.txt".toList,
        .entry .archive "bad.jar".toList (.badArchive "bad.jar".toList .noEndRecord),
        .entry .image "modules".toList (.noTemporary .notFound)] ∧
      (openStrict nowhere amongFailingText amongFailing).1 = .error .empty := by
  have alone := opened_without_failing undisturbed_amongFailing
  have good : working (outcomes nowhere (.start amongFailing) (elements nowhere amongFailingText)) =
      elements nowhere "one:two".toList := by decide +kernel
  have faults : (openAll nowhere amongFailingText amongFailing).1.faults = [.empty, .missing "gone".toList,
      .duplicate "one/.".toList, .unrecognized "notes.txt".toList,
      .entry .archive "bad.jar".toList (.badArchive "bad.jar".toList .noEndRecord),
      .entry .image "modules".toList (.noTemporary .notFound)] := by decide +kernel
  dsimp only at alone
  rw [good, faults] at alone
  obtain ⟨⟨entries, -⟩, strict, -, -, -, -, first⟩ := alone
  exact ⟨undisturbed_amongFailing, entries, strict, faults, first⟩

end ApiSurface.Classpath
