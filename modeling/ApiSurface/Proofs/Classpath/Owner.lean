import ApiSurface.Proofs.Classpath.Lookup

/-!
Who owns the names of a class path, and what is found for a name that is given out. Main statements: every
entry of a class path that was opened lists the names that it owns, and what it offers is owned by it or by
an entry before it (`settled_openAll`); giving out names changes nothing about either (`Walked.faces`); and
a name that is given out is looked up where its owner listed it, as no entry before knows it
(`find_of_next`).
-/

namespace ApiSurface

open ApiSurface.Text

/-! ### One element -/

namespace Loaded

/-- A file that is recognized is read in the format that its banner names. -/
theorem exists_ofFormat_of_open? {lines : List SignatureFile.SourceLine} {r : Reader}
    (recognized : Reader.open? lines = .ok (some r)) : ∃ f, r = Reader.ofFormat f lines := by
  unfold Reader.open? at recognized
  split at recognized
  · cases recognized
  · cases recognized
  · obtain ⟨f, -, rfl⟩ := Option.map_eq_some_iff.1 (Except.ok.inj recognized)
    exact ⟨f, rfl⟩

/-- What was opened is a directory, an archive, a module image, or a signature file that was read. -/
theorem ofKind_cases {kind : EntryKind} {settings : Settings} {fs after : FileSystem} {p : Path}
    {loaded : Loaded} (opened : ofKind kind settings fs p = (.ok loaded, after)) :
    (∃ names, ClassDirectory.names after p = .ok names ∧ loaded = ⟨.directory p, names⟩) ∨
    (∃ a : Archive, loaded = ⟨.archive p (some a) a.classNames, a.classNames⟩) ∨
    (∃ target roots names, namesIn after roots = .ok names ∧ loaded = ⟨.image (some target) roots, names⟩) ∨
    ∃ f lines cs r, (Reader.ofFormat f lines).readAll = (.ok cs, r) ∧ loaded = ofDescriptions cs := by
  cases kind with
  | directory =>
    simp only [ofKind, directory, Prod.mk.injEq] at opened
    obtain ⟨result, rfl⟩ := opened
    split at result
    · cases result
      exact .inl ⟨_, ‹_›, rfl⟩
    · cases result
  | archive =>
    simp only [ofKind, archive, Prod.mk.injEq] at opened
    obtain ⟨result, rfl⟩ := opened
    split at result
    · cases result
    · cases result
    · split at result
      · cases result
      · cases result
        exact .inr (.inl ⟨_, rfl⟩)
  | image =>
    simp only [ofKind, image] at opened
    split at opened
    · cases opened
    · split at opened
      · cases opened
      · split at opened
        · cases opened
        · cases opened
          exact .inr (.inr (.inl ⟨_, _, _, ‹_›, rfl⟩))
  | signatureFile =>
    simp only [ofKind, signatureFile, Prod.mk.injEq] at opened
    obtain ⟨result, rfl⟩ := opened
    split at result
    · cases result
    · split at result
      · cases result
      · cases result
      · rename_i r recognized
        split at result
        · cases result
        · cases result
          obtain ⟨f, rfl⟩ := exists_ofFormat_of_open? recognized
          exact .inr (.inr (.inr ⟨f, _, _, _, ‹_›, rfl⟩))

/-- A source offers its names when it is opened. -/
theorem offers_of_ofKind {kind : EntryKind} {settings : Settings} {fs after : FileSystem} {p : Path}
    {loaded : Loaded} (opened : ofKind kind settings fs p = (.ok loaded, after)) :
    Source.Offers after loaded.source loaded.names := by
  rcases ofKind_cases opened with ⟨names, listed, rfl⟩ | ⟨a, rfl⟩ | ⟨target, roots, names, listed, rfl⟩ |
    ⟨f, lines, cs, r, -, rfl⟩
  · exact .directory listed
  · exact .archive p a
  · exact .image listed
  · exact .signatureFile _ _

end Loaded

/-- After a claim of names the owner of a name is the one before, or the new one of a claimed name without one. -/
theorem Shadow.owner?_claimAll_eq_some_iff {s : Shadow} {names : List String} {entry owner : Nat} {name : String} :
    (s.claimAll names entry).2.owner? name = some owner ↔
      s.owner? name = some owner ∨ s.owner? name = none ∧ name ∈ names ∧ owner = entry := by
  rw [owner?_claimAll]
  cases s.owner? name with
  | none => simp [eq_comm]
  | some old => simp

namespace Source

/-- What a source offers depends on the directories only into which it looks. -/
theorem Offers.transfer {fs fs' : FileSystem} {s : Source} {names : List String}
    (offers : Offers fs s names) (same : ∀ root ∈ s.roots, fs'.find root = fs.find root) :
    Offers fs' s names := by
  have listed {root : Path} (same : fs'.find root = fs.find root) :
      ClassDirectory.names fs' root = ClassDirectory.names fs root := by
    simp only [ClassDirectory.names, same]
  cases offers with
  | directory offered => exact .directory ((listed (same _ (by simp [roots]))).trans offered)
  | archive path a => exact .archive path a
  | signatureFile classes modules => exact .signatureFile classes modules
  | @image extracted inside names offered =>
    have all : ∀ inside : List Path, (∀ root ∈ inside, fs'.find root = fs.find root) →
        Loaded.namesIn fs' inside = Loaded.namesIn fs inside := by
      intro inside same
      induction inside with
      | nil => rfl
      | cons root more ih =>
        rw [Loaded.namesIn, Loaded.namesIn, listed (same root (by simp)),
          ih fun other mem => same other (by simp [mem])]
    exact .image ((all inside same).trans offered)

end Source

namespace Classpath

namespace Opening

/-- An element is left out with a fault, or adds an entry, which claims what its source offers. -/
theorem addOrKeep_cases (settings : Settings) (o : Opening) (p : Path) :
    (∃ faults, (o.addOrKeep settings p).classpath = { o.classpath with faults }) ∨
    ∃ kind files loaded, Loaded.ofKind kind settings files p = (.ok loaded, (o.addOrKeep settings p).files) ∧
      (o.addOrKeep settings p).classpath = { o.classpath with
        entries := o.classpath.entries ++
          [(Entry.claim p loaded o.classpath.shadow o.classpath.entries.length).1]
        shadow := (Entry.claim p loaded o.classpath.shadow o.classpath.entries.length).2 } := by
  cases result : o.add settings p with
  | mk fault after =>
    cases fault with
    | some fault =>
      refine .inl ⟨o.classpath.faults ++ [fault], ?_⟩
      have kept := classpath_add_of_fault result
      simp [addOrKeep, result, kept]
    | none =>
      refine .inr ?_
      have reached : o.addOrKeep settings p = after := by simp only [addOrKeep, result]
      rw [reached]
      simp only [add] at result
      split at result
      · cases result
      · split at result
        · cases result
        · split at result
          · cases result
          · simp only [addNew] at result
            split at result
            · cases result
            · split at result
              · cases result
              · rename_i opened
                cases result
                simp only [Entry.openAt] at opened
                split at opened
                · cases opened
                · cases opened
                  exact ⟨_, _, _, ‹_›, rfl⟩

/-- Unless a module image is extracted, the file system stays as it is. -/
theorem files_addOrKeep {settings : Settings} {o : Opening} {p : Path}
    (noImage : EntryKind.ofPath? o.files p ≠ some .image) : (o.addOrKeep settings p).files = o.files := by
  have opened (kind : EntryKind) (other : kind ≠ .image) :
      (Loaded.ofKind kind settings o.files p).2 = o.files := by
    cases kind with
    | image => exact absurd rfl other
    | directory | archive | signatureFile => rfl
  have added (seen : List (List (List Char))) :
      (addNew settings { o with seen := seen } p).2.files = o.files := by
    simp only [addNew]
    cases kind : EntryKind.ofPath? o.files p with
    | none => rfl
    | some kind' =>
      have same := opened kind' (by rintro rfl; exact noImage kind)
      simp only [Entry.openAt]
      cases loading : Loaded.ofKind kind' settings o.files p with
      | mk result files =>
        rw [loading] at same
        cases result <;> exact same
  have all : (o.add settings p).2.files = o.files := by
    simp only [add]
    split
    · rfl
    · split
      · rfl
      · split
        · rfl
        · exact added _
  unfold addOrKeep
  split <;> rename_i result <;> rw [result] at all <;> exact all
end Opening

/-- The state after some elements of a class path. -/
def opened (settings : Settings) (fs : FileSystem) (ps : List Path) : Opening :=
  ps.foldl (Opening.addOrKeep settings) (.start fs)

theorem opened_concat (settings : Settings) (fs : FileSystem) (ps : List Path) (p : Path) :
    opened settings fs (ps ++ [p]) = (opened settings fs ps).addOrKeep settings p := by
  simp [opened]

/-- The file system does not change: in the end the directories of every entry are what they were when the
entry was opened. -/
def Steady (settings : Settings) (text : List Char) (fs : FileSystem) : Prop :=
  ∀ before p more e, elements settings text = before ++ p :: more →
    (opened settings fs (before ++ [p])).classpath.entries =
      (opened settings fs before).classpath.entries ++ [e] →
    ∀ root ∈ e.source.roots,
      (openAll settings text fs).2.find root = (opened settings fs (before ++ [p])).files.find root

/-! ### All elements -/

/-- Entries that list what they own, and of which no earlier one offers what a later one owns. -/
structure Settled (fs : FileSystem) (entries : List Entry) (shadow : Shadow) : Prop where
  /-- What an entry offers is owned by it or by an entry before it. -/
  offers : ∀ k e, entries[k]? = some e → ∃ names, Source.Offers fs e.source names ∧
    (∀ name ∈ names, ∃ owner ≤ k, shadow.owner? name = some owner) ∧
    ∀ name, shadow.owner? name = some k → name ∈ names
  /-- An entry lists the names that it owns. -/
  lists : ∀ k e, entries[k]? = some e → ∀ name, name ∈ e.listing.all ↔ shadow.owner? name = some k
  owned : ∀ name k, shadow.owner? name = some k → k < entries.length

theorem settled_nil (fs : FileSystem) : Settled fs [] .empty :=
  ⟨fun _ _ none => by simp at none, fun _ _ none => by simp at none,
    fun _ _ owner => by simp [Shadow.owner?, Shadow.empty] at owner⟩

/-- An entry behind others is one of these or the last one. -/
theorem of_getElem?_concat {entries : List Entry} {last e : Entry} {k : Nat}
    (there : (entries ++ [last])[k]? = some e) :
    entries[k]? = some e ∧ k < entries.length ∨ k = entries.length ∧ e = last := by
  rcases Nat.lt_trichotomy k entries.length with before | rfl | behind
  · exact .inl ⟨by rwa [List.getElem?_append_left before] at there, before⟩
  · exact .inr ⟨rfl, by simpa using there.symm⟩
  · rw [List.getElem?_eq_none (by simp; omega)] at there
    cases there

/-- One more entry claims what nobody owned before. -/
theorem Settled.claim {fs : FileSystem} {entries : List Entry} {shadow : Shadow} {loaded : Loaded}
    (settled : Settled fs entries shadow) (p : Path)
    (offers : Source.Offers fs loaded.source loaded.names) :
    Settled fs (entries ++ [(Entry.claim p loaded shadow entries.length).1])
      (Entry.claim p loaded shadow entries.length).2 := by
  have owner {name : String} {k : Nat} : (Entry.claim p loaded shadow entries.length).2.owner? name = some k ↔
      shadow.owner? name = some k ∨ shadow.owner? name = none ∧ name ∈ loaded.names ∧ k = entries.length :=
    Shadow.owner?_claimAll_eq_some_iff
  have back {name : String} {k : Nat} (before : k < entries.length) :
      (Entry.claim p loaded shadow entries.length).2.owner? name = some k ↔ shadow.owner? name = some k := by
    rw [owner]
    exact or_iff_left fun fresh => Nat.ne_of_lt before fresh.2.2
  have fresh {name : String} :
      (Entry.claim p loaded shadow entries.length).2.owner? name = some entries.length ↔
        name ∈ loaded.names ∧ shadow.owner? name = none := by
    rw [owner, or_iff_right fun owned => Nat.lt_irrefl _ (settled.owned _ _ owned)]
    simp [and_comm]
  refine ⟨fun k e there => ?_, fun k e there name => ?_, fun name k owned => ?_⟩
  · rcases of_getElem?_concat there with ⟨there, before⟩ | ⟨rfl, rfl⟩
    · obtain ⟨names, offers, owned, listed⟩ := settled.offers k e there
      refine ⟨names, offers, fun name mem => ?_, fun name owned => listed name ((back before).1 owned)⟩
      obtain ⟨other, early, owned⟩ := owned name mem
      exact ⟨other, early, owner.2 (.inl owned)⟩
    · refine ⟨loaded.names, offers, fun name mem => ?_, fun name owned => (fresh.1 owned).1⟩
      cases given : shadow.owner? name with
      | none => exact ⟨entries.length, Nat.le_refl _, fresh.2 ⟨mem, given⟩⟩
      | some other => exact ⟨other, Nat.le_of_lt (settled.owned name other given), owner.2 (.inl given)⟩
  · rcases of_getElem?_concat there with ⟨there, before⟩ | ⟨rfl, rfl⟩
    · rw [back before]
      exact settled.lists k e there name
    · rw [fresh, Entry.all_listing_claim]
      exact Shadow.mem_gained_claimAll
  · rw [List.length_append, List.length_singleton]
    rcases owner.1 owned with owned | ⟨-, -, rfl⟩
    · exact Nat.lt_succ_of_lt (settled.owned name k owned)
    · exact Nat.lt_succ_self _

/-- A class path that was opened is settled, if the file system does not change. -/
theorem settled_openAll {settings : Settings} {text : List Char} {fs : FileSystem}
    (steady : Steady settings text fs) :
    Settled (openAll settings text fs).2 (openAll settings text fs).1.entries
      (openAll settings text fs).1.shadow := by
  suffices each : ∀ before more, elements settings text = before ++ more →
      Settled (openAll settings text fs).2 (opened settings fs before).classpath.entries
        (opened settings fs before).classpath.shadow from
    each (elements settings text) [] (by simp)
  intro before
  induction before using List.reverseRecOn with
  | nil => exact fun _ _ => settled_nil _
  | append_singleton before p ih =>
    intro more whole
    have whole : elements settings text = before ++ p :: more := by simpa using whole
    have settled := ih (p :: more) whole
    rcases Opening.addOrKeep_cases settings (opened settings fs before) p with ⟨faults, same⟩ | added
    · rw [opened_concat, same]
      exact settled
    · obtain ⟨kind, files, loaded, found, same⟩ := added
      rw [← opened_concat] at found same
      have entries := congrArg Classpath.entries same
      rw [same]
      exact settled.claim p
        ((Loaded.offers_of_ofKind found).transfer (steady before p more _ whole entries))

theorem files_opened {settings : Settings} {fs : FileSystem} {ps : List Path}
    (noImage : ∀ p ∈ ps, EntryKind.ofPath? fs p ≠ some .image) : (opened settings fs ps).files = fs := by
  induction ps using List.reverseRecOn with
  | nil => rfl
  | append_singleton before p ih =>
    have same := ih fun q mem => noImage q (by simp [mem])
    rw [opened_concat, Opening.files_addOrKeep (by rw [same]; exact noImage p (by simp)), same]

/-- Without module images on the class path the file system does not change. -/
theorem steady_of_noImage {settings : Settings} {text : List Char} {fs : FileSystem}
    (noImage : ∀ p ∈ elements settings text, EntryKind.ofPath? fs p ≠ some .image) :
    Steady settings text fs ∧ (openAll settings text fs).2 = fs := by
  have final : (openAll settings text fs).2 = fs := files_opened noImage
  refine ⟨fun before p more e whole _ root _ => ?_, final⟩
  have early : ∀ q ∈ before ++ [p], EntryKind.ofPath? fs q ≠ some .image := fun q mem =>
    noImage q (by rw [whole]; rcases List.mem_append.1 mem with mem | mem <;> simp_all)
  rw [final, files_opened early]

/-! ### Giving out names -/

/-- What does not change about an entry when names are given out. -/
def face (e : Entry) : Source × List String := (e.source, e.listing.all)

/-- A class path from which names were given out, any number of times from the start. -/
inductive Walked (cp : Classpath) : Classpath → Prop
  | start : Walked cp cp
  | next {before after name} (walked : Walked cp before) (given : before.next? = some (name, after)) :
    Walked cp after
  | rewind {before} (walked : Walked cp before) : Walked cp before.rewind

/-- The name that is given out is listed, and its entry keeps its face. -/
theorem nextOf?_spec {entries after : List Entry} {name : String}
    (given : nextOf? entries = some (name, after)) :
    after.map face = entries.map face ∧ ∃ e ∈ entries, name ∈ e.listing.all := by
  induction entries generalizing after with
  | nil => cases given
  | cons e more ih =>
    simp only [nextOf?] at given
    split at given
    · rename_i found
      cases given
      obtain ⟨⟨_, listing⟩, next, same⟩ := Option.map_eq_some_iff.1 found
      cases same
      have all := Listing.all_next next
      refine ⟨by simp [face, all], e, by simp, ?_⟩
      unfold Listing.next? at next
      split at next
      · cases next
      · rename_i ahead
        cases next
        simp [Listing.all, ahead]
    · obtain ⟨⟨_, rest⟩, next, same⟩ := Option.map_eq_some_iff.1 given
      cases same
      obtain ⟨same, other, inMore, listed⟩ := ih next
      exact ⟨by simp [same], other, by simp [inMore], listed⟩

/-- Giving out a name keeps the faces of all entries, and one of them lists the name. -/
theorem next?_spec {cp after : Classpath} {name : String} (given : cp.next? = some (name, after)) :
    after.entries.map face = cp.entries.map face ∧ ∃ e ∈ cp.entries, name ∈ e.listing.all := by
  unfold next? at given
  split at given
  · cases given
  · obtain ⟨⟨_, entries⟩, next, same⟩ := Option.map_eq_some_iff.1 given
    cases same
    exact nextOf?_spec next

/-- However names were given out, the entries keep their faces. -/
theorem Walked.faces {cp after : Classpath} (walked : Walked cp after) :
    after.entries.map face = cp.entries.map face := by
  induction walked with
  | start => rfl
  | next _ given ih => exact (next?_spec given).1.trans ih
  | rewind _ ih =>
    rw [← ih]
    simp [Classpath.rewind, Function.comp_def, face, Entry.rewind]

/-- What is found depends on the faces of the entries only. -/
theorem find_congr {a b : Classpath} (same : a.entries.map face = b.entries.map face) (fs : FileSystem)
    (name : String) : a.find fs name = b.find fs name := by
  have each (entries : List Entry) : firstHit (fun e : Entry => e.find fs name) name entries =
      firstHit (fun s : Source => s.find fs name) name ((entries.map face).map Prod.fst) := by
    induction entries with
    | nil => rfl
    | cons e more ih => simp only [List.map_cons, firstHit, ih]; rfl
  rw [find, find, each, each, same]

/-- **A name that is given out is found where it was listed.** One entry owns it and lists it. The entries
before know of it only that it is not there, and what is found is what the owner listed it for. -/
theorem find_of_next {settings : Settings} {text : List Char} {fs fs' : FileSystem} {cp walked next : Classpath}
    {name : String} (opening : openAll settings text fs = (cp, fs')) (steady : Steady settings text fs)
    (tree : fs'.root.Proper) (reached : Walked cp walked) (given : walked.next? = some (name, next))
    (fair : ∀ k, cp.shadow.owner? name = some k →
      ∀ e ∈ cp.entries.take (k + 1), e.source.Fair fs' name) :
    ∃ k e, cp.shadow.owner? name = some k ∧ cp.entries[k]? = some e ∧ name ∈ e.listing.all ∧
      (∀ other ∈ cp.entries.take k, other.find fs' name = .error (.classNotFound name)) ∧
      Source.Origin fs' name e.source (next.find fs' name) := by
  have settled : Settled fs' cp.entries cp.shadow := by
    have all := settled_openAll steady
    rwa [opening] at all
  obtain ⟨e, k, there, listed⟩ : ∃ (e : Entry) (k : Nat), cp.entries[k]? = some e ∧
      name ∈ e.listing.all := by
    obtain ⟨-, other, inWalked, listed⟩ := next?_spec given
    have inFaces : face other ∈ cp.entries.map face :=
      reached.faces ▸ List.mem_map_of_mem inWalked
    obtain ⟨e, inEntries, same⟩ := List.mem_map.1 inFaces
    obtain ⟨k, there⟩ := List.getElem?_of_mem inEntries
    have all : e.listing.all = other.listing.all := congrArg Prod.snd same
    exact ⟨e, k, there, all ▸ listed⟩
  have owner := (settled.lists k e there name).1 listed
  obtain ⟨inside, same⟩ := List.getElem?_eq_some_iff.1 there
  have cut : cp.entries = cp.entries.take k ++ e :: cp.entries.drop (k + 1) := by
    rw [← same, ← List.drop_eq_getElem_cons inside, List.take_append_drop]
  have asked : cp.entries.take (k + 1) = cp.entries.take k ++ [e] := by
    rw [List.take_add_one, there, Option.toList_some]
  have absent : ∀ other ∈ cp.entries.take k, other.find fs' name = .error (.classNotFound name) := by
    intro other early
    have fair' := fair k owner other (by rw [asked]; exact List.mem_append_left _ early)
    obtain ⟨i, before, there⟩ := List.mem_take_iff_getElem.1 early
    have at' : cp.entries[i]? = some other := List.getElem?_eq_some_iff.2 ⟨by omega, there⟩
    obtain ⟨names, offers, owned, -⟩ := settled.offers i other at'
    refine (offers.find tree fair').1 fun mem => ?_
    obtain ⟨j, first, owned⟩ := owned name mem
    rw [owner, Option.some.injEq] at owned
    omega
  obtain ⟨names, offers, -, mine⟩ := settled.offers k e there
  have own : Source.Origin fs' name e.source (e.find fs' name) :=
    (offers.find tree (fair k owner e (by simp [asked]))).2 (mine name owner)
  have behind : next.find fs' name = cp.find fs' name :=
    find_congr ((next?_spec given).1.trans reached.faces) fs' name
  have decided : cp.find fs' name = e.find fs' name := by
    rw [find, cut, firstHit_append (fun e : Entry => e.find fs' name) absent,
      firstHit_cons_of_known (fun e : Entry => e.find fs' name) own.known]
  exact ⟨k, e, owner, there, listed, absent, behind.trans decided ▸ own⟩

/-- Two directories, each with a class of the same package. -/
def twoDirectories : FileSystem :=
  ⟨.directory [("one".toList, .directory [("a".toList, .directory [("B.class".toList, .file [1] false)])]),
    ("two".toList, .directory [("a".toList, .directory [("C.class".toList, .file [2] false)])])], [], []⟩

theorem proper_twoDirectories : twoDirectories.root.Proper := by
  simp [twoDirectories, FileNode.Proper, FileNode.ProperAll]
  decide

theorem fair_twoDirectories {root : Path} (mem : root ∈ ["one".toList, "two".toList]) :
    ClassDirectory.Fair twoDirectories root "a.C" := by
  have one : twoDirectories.find "one".toList =
      .ok (.directory [("a".toList, .directory [("B.class".toList, .file [1] false)])]) := rfl
  have two : twoDirectories.find "two".toList =
      .ok (.directory [("a".toList, .directory [("C.class".toList, .file [2] false)])]) := rfl
  have way : classWay "a.C" = ["a".toList, "C.class".toList] := by decide
  have single {way : List (List Char)} {bytes : List UInt8} {file : List Char} {content : List UInt8}
      (inside : (way, bytes) ∈ (FileNode.directory [("a".toList, .directory [(file, .file content false)])]).files) :
      way = ["a".toList, file] := by
    simp [FileNode.files, FileNode.filesOf] at inside
    exact inside.1
  simp only [List.mem_cons, List.not_mem_nil, or_false] at mem
  rcases mem with rfl | rfl
  · refine ⟨by decide, by decide, by decide, by decide, fun node found => ?_, ?_⟩
    · rw [one] at found
      cases found
      rw [way]
      exact trivial
    · intro node way bytes found inside stands
      rw [one] at found
      cases found
      rw [single inside] at stands
      exact absurd stands (by decide)
  · refine ⟨by decide, by decide, by decide, by decide, fun node found => ?_, ?_⟩
    · rw [two] at found
      cases found
      rw [way]
      exact trivial
    · intro node way bytes found inside stands
      rw [two] at found
      cases found
      rw [single inside]
      decide

/-- The class in the second directory is given out after the one in the first, and found where it is. -/
theorem find_of_next_twoDirectories :
    ∃ between next k e, (openAll .usual "one:two".toList twoDirectories).1.next? = some ("a.B", between) ∧
      between.next? = some ("a.C", next) ∧
      (openAll .usual "one:two".toList twoDirectories).1.shadow.owner? "a.C" = some k ∧
      (openAll .usual "one:two".toList twoDirectories).1.entries[k]? = some e ∧
      Source.Origin twoDirectories "a.C" e.source (next.find twoDirectories "a.C") := by
  have elements : elements .usual "one:two".toList = ["one".toList, "two".toList] := by decide
  obtain ⟨steady, files⟩ : Steady .usual "one:two".toList twoDirectories ∧
      (openAll .usual "one:two".toList twoDirectories).2 = twoDirectories :=
    steady_of_noImage (by rw [elements]; decide)
  have given : (openAll .usual "one:two".toList twoDirectories).1.next?.map
      (fun x => (x.1, x.2.next?.map Prod.fst)) = some ("a.B", some "a.C") := by decide +kernel
  obtain ⟨⟨name, between⟩, first, same⟩ := Option.map_eq_some_iff.1 given
  obtain ⟨rfl, later⟩ := Prod.mk.inj same
  obtain ⟨⟨name, next⟩, second, same⟩ := Option.map_eq_some_iff.1 later
  obtain rfl : name = "a.C" := same
  have sources : (openAll .usual "one:two".toList twoDirectories).1.entries.map Entry.source =
      [.directory "one".toList, .directory "two".toList] := rfl
  have opening : openAll .usual "one:two".toList twoDirectories =
      ((openAll .usual "one:two".toList twoDirectories).1, twoDirectories) := Prod.ext rfl files
  obtain ⟨k, e, owner, there, -, -, origin⟩ := find_of_next opening steady proper_twoDirectories
    (.next .start first) second fun k _ e asked => by
      have inSources := List.mem_map_of_mem (f := Entry.source) (List.mem_of_mem_take asked)
      rw [sources, List.mem_cons, List.mem_singleton] at inSources
      rcases inSources with same | same <;> rw [same] <;> exact fair_twoDirectories (by simp)
  exact ⟨between, next, k, e, first, second, owner, there, origin⟩

/-- A file stands in the first directory where the second one has a package. -/
def fileInTheWay : FileSystem :=
  ⟨.directory [("one".toList, .directory [("a".toList, .file [] false)]),
    ("two".toList, .directory [("a".toList, .directory [("B.class".toList, .file [1] false)])])], [], []⟩

/-- Where a file is in the way of a package, the class that is given out cannot be looked up. -/
theorem find_ne_ok_of_fileInTheWay :
    ∃ next, (openAll .usual "one:two".toList fileInTheWay).1.next? = some ("a.B", next) ∧
      next.find fileInTheWay "a.B" = .error (.file .notDirectory) := by
  have given : (openAll .usual "one:two".toList fileInTheWay).1.next?.map Prod.fst = some "a.B" := by
    decide +kernel
  obtain ⟨⟨name, next⟩, found, same⟩ := Option.map_eq_some_iff.1 given
  obtain rfl : name = "a.B" := same
  refine ⟨next, found, ?_⟩
  rw [find_congr (next?_spec found).1]
  rfl

end Classpath
end ApiSurface
