import ApiSurface.Classpath.Source
import ApiSurface.Proofs.Result
import ApiSurface.Proofs.Text.Numeral

/-!
Archives for several releases. An archive without a descriptor of its own can have one for each of several
releases, and the one whose name is the greatest text is read. Main statement: that one belongs to the
newest release, if the numbers of all releases have as many digits as its number
(`modules_newestRelease`). Numbers of different lengths are not in the order of their texts, so that
release 9 is taken for a newer one than release 11 (`modules_ne_newestRelease`).
-/

namespace ApiSurface

open ApiSurface.Text

/-! ### Numbers and their texts -/

namespace Text

/-- Of texts that begin with parts of one length, the one with the lesser part is less. -/
theorem append_lt_append_iff {a b s t : List Char} (same : a.length = b.length) :
    a ++ s < b ++ t ↔ a < b ∨ a = b ∧ s < t := by
  induction a generalizing b with
  | nil =>
    obtain rfl : b = [] := List.length_eq_zero_iff.1 same.symm
    simp
  | cons c a ih =>
    obtain ⟨d, b, rfl⟩ := List.exists_cons_of_length_eq_add_one same.symm
    rw [List.cons_append, List.cons_append, List.cons_lt_cons_iff, List.cons_lt_cons_iff,
      ih (Nat.succ.inj same), List.cons.injEq]
    grind

theorem decimal_eq_append {n : Nat} (large : 10 ≤ n) :
    decimal n = decimal (n / 10) ++ [Nat.digitChar (n % 10)] :=
  Nat.toDigits_of_base_le (by decide) large

theorem decimal_of_lt {n : Nat} (small : n < 10) : decimal n = [Nat.digitChar n] :=
  Nat.toDigits_of_lt_base small

/-- The digits are in the order of their values. -/
theorem lt_of_digitChar_lt {d e : Nat} (hd : d < 10) (he : e < 10)
    (less : Nat.digitChar d < Nat.digitChar e) : d < e := by
  have all : ∀ d ∈ List.range 10, ∀ e ∈ List.range 10, Nat.digitChar d < Nat.digitChar e → d < e := by
    decide
  exact all d (List.mem_range.2 hd) e (List.mem_range.2 he) less

/-- Numbers with as many digits as each other are in the order of their texts. -/
theorem lt_of_decimal_lt {m n : Nat} (same : (decimal m).length = (decimal n).length)
    (less : decimal m < decimal n) : m < n := by
  induction m using Nat.strongRecOn generalizing n with
  | _ m ih =>
    by_cases small : m < 10
    · by_cases small' : n < 10
      · rw [decimal_of_lt small, decimal_of_lt small', List.cons_lt_cons_iff] at less
        rcases less with less | ⟨-, less⟩
        · exact lt_of_digitChar_lt small small' less
        · exact absurd less (List.not_lt_nil _)
      · omega
    · by_cases small' : n < 10
      · -- a number of one digit is not as long as one of several
        have few := List.length_pos_iff.2 (decimal_ne_nil (m / 10))
        rw [decimal_eq_append (Nat.not_lt.1 small), decimal_of_lt small'] at same
        simp only [List.length_append, List.length_cons, List.length_nil] at same
        omega
      · rw [decimal_eq_append (Nat.not_lt.1 small), decimal_eq_append (Nat.not_lt.1 small')] at same less
        have fronts : (decimal (m / 10)).length = (decimal (n / 10)).length := by simpa using same
        rcases (append_lt_append_iff fronts).1 less with less | ⟨eq, less⟩
        · have := ih (m / 10) (by omega) fronts less
          omega
        · have tens := decimal_injective eq
          rcases List.cons_lt_cons_iff.1 less with less | ⟨-, less⟩
          · have := lt_of_digitChar_lt (Nat.mod_lt m (by decide)) (Nat.mod_lt n (by decide)) less
            omega
          · exact absurd less (List.not_lt_nil _)

end Text

namespace Archive

/-! ### The greatest name -/

theorem greatest?_eq_none_iff {names : List String} : greatest? names = none ↔ names = [] := by
  cases names with
  | nil => simp [greatest?]
  | cons name more =>
    rw [greatest?]
    split <;> simp

/-- The greatest of some names is one of them, and none is greater. -/
theorem of_greatest? {names : List String} {name : String} (found : greatest? names = some name) :
    name ∈ names ∧ ∀ other ∈ names, other ≤ name := by
  induction names generalizing name with
  | nil => cases found
  | cons first more ih =>
    rw [greatest?] at found
    split at found
    · rename_i alone
      obtain rfl := greatest?_eq_none_iff.1 alone
      obtain rfl : first = name := Option.some.inj found
      simp
    · rename_i best among
      obtain ⟨mem, top⟩ := ih among
      obtain rfl := Option.some.inj found
      rw [List.forall_mem_cons]
      split
      · rename_i le
        exact ⟨List.mem_cons_of_mem _ mem, le, top⟩
      · rename_i less
        have above : best ≤ first := (String.le_total first best).resolve_left less
        exact ⟨List.mem_cons_self, String.le_refl _, fun other mem => String.le_trans (top other mem) above⟩

theorem greatest?_eq_some_iff {names : List String} {name : String} :
    greatest? names = some name ↔ name ∈ names ∧ ∀ other ∈ names, other ≤ name := by
  refine ⟨of_greatest?, fun ⟨mem, top⟩ => ?_⟩
  cases found : greatest? names with
  | none => simp [greatest?_eq_none_iff.1 found] at mem
  | some best =>
    obtain ⟨mem', top'⟩ := of_greatest? found
    rw [String.le_antisymm (top best mem') (top' name mem)]

/-! ### Releases -/

/-- The name of the entry that describes the module for one release. -/
def releaseName (release : Nat) : String :=
  String.ofList (versionsLead ++ (decimal release ++ '/' :: moduleDescriptor))

/-- Of releases whose numbers have as many digits as each other, the name of the newer one is greater. -/
theorem releaseName_le {m n : Nat} (same : (decimal m).length = (decimal n).length) (le : m ≤ n) :
    releaseName m ≤ releaseName n := by
  refine String.not_lt.1 fun less => ?_
  rw [String.lt_iff, releaseName, releaseName, String.toList_ofList, String.toList_ofList,
    append_lt_append_iff rfl, append_lt_append_iff same.symm] at less
  rcases less with less | ⟨-, less | ⟨-, less⟩⟩
  · exact absurd less (List.lt_irrefl _)
  · exact absurd (lt_of_decimal_lt same.symm less) (Nat.not_lt.2 le)
  · exact absurd less (List.lt_irrefl _)

theorem releaseName_injective {m n : Nat} (same : releaseName m = releaseName n) : m = n := by
  rw [releaseName, releaseName, String.ofList_inj, List.append_cancel_left_eq,
    List.append_cancel_right_eq] at same
  exact decimal_injective same

/-- Whether the name of an entry is taken for that of a module of a release. -/
def IsReleaseDescriptor (name : String) : Prop :=
  versionsLead <+: name.toList ∧ moduleDescriptor <:+ name.toList

theorem releaseDescriptor?_eq_some_iff {a : Archive} {name : String} :
    a.releaseDescriptor? = some name ↔
      (name ∈ a.names ∧ IsReleaseDescriptor name) ∧
        ∀ other ∈ a.names, IsReleaseDescriptor other → other ≤ name := by
  simp only [releaseDescriptor?, greatest?_eq_some_iff, List.mem_filter, IsReleaseDescriptor,
    Bool.and_eq_true, List.isPrefixOf_iff_prefix, List.isSuffixOf_iff_suffix, and_imp]

theorem isReleaseDescriptor_releaseName (release : Nat) : IsReleaseDescriptor (releaseName release) := by
  rw [IsReleaseDescriptor, releaseName, String.toList_ofList]
  exact ⟨List.prefix_append _ _,
    ((List.suffix_cons _ _).trans (List.suffix_append _ _)).trans (List.suffix_append _ _)⟩

/-- The module that an entry describes. -/
def describedIn (a : Archive) (e : Entry) : Except LookupFault (Option ModuleDescription) :=
  match a.contents e with
  | .ok bytes => moduleOfBytes bytes
  | .error fault => .error (.entry fault)

theorem exists_entry? {a : Archive} {name : String} (mem : name ∈ a.names) : ∃ e, a.entry? name = some e := by
  unfold entry?
  rw [← Option.isSome_iff_exists, List.find?_isSome]
  obtain ⟨e, there, rfl⟩ := List.mem_map.1 mem
  exact ⟨e, List.mem_reverse.2 there, beq_self_eq_true _⟩

theorem entry?_eq_none {a : Archive} {name : String} (other : name ∉ a.names) : a.entry? name = none := by
  unfold entry?
  rw [List.find?_eq_none]
  intro e there same
  exact other (List.mem_map.2 ⟨e, List.mem_reverse.1 there, eq_of_beq same⟩)

/-- Without a descriptor of its own an archive describes what the chosen entry does. -/
theorem module?_of_releaseDescriptor? {a : Archive} {name : String} {e : Entry} (path : Path)
    (noRoot : String.ofList moduleDescriptor ∉ a.names) (chosen : a.releaseDescriptor? = some name)
    (found : a.entry? name = some e) : module? path (some a) = a.describedIn e := by
  have root : readOpen path (some a) (String.ofList moduleDescriptor) = .ok none := by
    simp only [readOpen, read, entry?_eq_none noRoot]
    rfl
  have stored : readOpen path (some a) name = ((a.contents e).map some).mapError .entry := by
    simp only [readOpen, read, found]
  simp only [module?, root, Option.bind_some, chosen, stored, describedIn]
  cases a.contents e <;> rfl

end Archive

namespace Source

open Archive

/-- **The newest release of an archive is read.** An archive without a descriptor of its own, whose releases have
numbers with as many digits as that of the newest one, describes the module of the newest one, whatever else
there is, in whatever order, as long as no other name is taken for that of a later release. -/
theorem modules_newestRelease {a : Archive} {newest : Nat} (noRoot : String.ofList moduleDescriptor ∉ a.names)
    (held : releaseName newest ∈ a.names)
    (releases : ∀ release, releaseName release ∈ a.names →
      release ≤ newest ∧ (decimal release).length = (decimal newest).length)
    (others : ∀ name ∈ a.names, IsReleaseDescriptor name →
      (∃ release, name = releaseName release) ∨ name ≤ releaseName newest)
    (path : Path) (present : List String) (fs : FileSystem) :
    ∃ e, a.entry? (releaseName newest) = some e ∧
      (Source.archive path (some a) present).modules fs = (a.describedIn e).map Option.toList := by
  have chosen : a.releaseDescriptor? = some (releaseName newest) := by
    refine releaseDescriptor?_eq_some_iff.2 ⟨⟨held, isReleaseDescriptor_releaseName newest⟩, ?_⟩
    intro name mem taken
    rcases others name mem taken with ⟨release, rfl⟩ | le
    · obtain ⟨older, digits⟩ := releases release mem
      exact releaseName_le digits older
    · exact le
  obtain ⟨e, found⟩ := exists_entry? held
  exact ⟨e, found, by rw [Source.modules, module?_of_releaseDescriptor? path noRoot chosen found]⟩

end Source

/-! ### Archives of two releases -/

namespace Archive

/-- The class file of a module of which only the name is known. -/
def moduleFile (name : String) : ClassFile :=
  let text (s : String) : Option ClassFile.PoolEntry := some (.text (s.toList.flatMap String.utf8EncodeChar))
  { minor := 0
    major := 53
    pool := [text "module-info", some (.classRef 1), text "Module", text name, some (.moduleRef 4)]
    flags := 0x8000
    thisClass := 2
    superclass := 0
    interfaces := []
    fields := []
    methods := []
    attributes := [⟨3, ClassFile.ModuleTable.encode ⟨5, 0, 0, [], [], [], [], []⟩⟩] }

/-- The class file of the module that is called after the number of a release. -/
def releaseFile (release : Nat) : List UInt8 := (moduleFile ("m" ++ toString release)).encode

/-- The class file with what stands before it in an archive. -/
def releaseBytes (release : Nat) : List UInt8 :=
  mark localMark ++ List.replicate 26 0 ++ releaseFile release

/-- The entry for a release whose bytes begin at this place. -/
def releaseEntry (release start : Nat) : Entry :=
  ⟨releaseName release, false, 0, checksum (releaseFile release), (releaseFile release).length, start⟩

/-- An archive for two releases. -/
def releaseArchive (first second : Nat) : Archive :=
  ⟨releaseBytes first ++ releaseBytes second,
    [releaseEntry first 0, releaseEntry second (releaseBytes first).length]⟩

theorem entry?_first {first second : Nat} (other : releaseName second ≠ releaseName first) :
    Archive.entry? (releaseArchive first second) (releaseName first) = some (releaseEntry first 0) := by
  unfold entry?
  simp [releaseArchive, releaseEntry, other]

/-- Of an entry that is stored as it is the stored bytes are described. -/
theorem describedIn_releaseEntry {a : Archive} {release start : Nat}
    (stored : (a.storedBytes (releaseEntry release start)).toOption = some (releaseFile release)) :
    a.describedIn (releaseEntry release start) = moduleOfBytes (releaseFile release) := by
  have stored := toOption_eq_some_iff.1 stored
  have plain : (releaseEntry release start).encrypted = false := rfl
  have whole : (releaseEntry release start).compression = 0 := rfl
  have check : checksum (releaseFile release) = (releaseEntry release start).checksum := rfl
  simp [describedIn, contents, plain, stored, whole, decompress, check]

end Archive

namespace Source

open Archive

/-- Of releases 11 and 10 the archive describes the module of release 11. -/
theorem modules_newestRelease_eleven : ∃ e, Archive.entry? (releaseArchive 11 10) (releaseName 11) = some e ∧
    (releaseArchive 11 10).describedIn e = .ok (some (.named "m11")) ∧
    (Source.archive "lib.jar".toList (some (releaseArchive 11 10)) []).modules .empty = .ok [.named "m11"] := by
  have names (name : String) (mem : name ∈ (releaseArchive 11 10).names) :
      name = releaseName 11 ∨ name = releaseName 10 := by
    simpa [Archive.names, releaseArchive, releaseEntry] using mem
  have releases : ∀ release, releaseName release ∈ (releaseArchive 11 10).names →
      release ≤ 11 ∧ (decimal release).length = (decimal 11).length := by
    intro release mem
    rcases names _ mem with same | same <;> rw [releaseName_injective same] <;> decide
  obtain ⟨e, found, modules⟩ := modules_newestRelease (by decide) List.mem_cons_self releases
    (fun name mem _ => (names name mem).elim (.inl ⟨11, ·⟩) (.inl ⟨10, ·⟩)) "lib.jar".toList [] .empty
  have first := entry?_first (show releaseName 10 ≠ releaseName 11 by decide)
  obtain rfl : releaseEntry 11 0 = e := Option.some.inj (first.symm.trans found)
  have described : (releaseArchive 11 10).describedIn (releaseEntry 11 0) = .ok (some (.named "m11")) :=
    (describedIn_releaseEntry (by decide +kernel)).trans (by rfl)
  exact ⟨_, found, described, by rw [modules, described]; rfl⟩

/-- Of releases 9 and 11 the archive describes the module of release 9, which is the older one. -/
theorem modules_ne_newestRelease : (releaseArchive 9 11).names = [releaseName 9, releaseName 11] ∧
    (releaseArchive 9 11).describedIn (releaseEntry 11 (releaseBytes 9).length) = .ok (some (.named "m11")) ∧
    (Source.archive "lib.jar".toList (some (releaseArchive 9 11)) []).modules .empty = .ok [.named "m9"] := by
  have chosen : (releaseArchive 9 11).releaseDescriptor? = some (releaseName 9) := by decide
  have found := entry?_first (show releaseName 11 ≠ releaseName 9 by decide)
  have older : (releaseArchive 9 11).describedIn (releaseEntry 9 0) = .ok (some (.named "m9")) :=
    (describedIn_releaseEntry (by decide +kernel)).trans (by rfl)
  have one := module?_of_releaseDescriptor? "lib.jar".toList (by decide) chosen found
  exact ⟨rfl, (describedIn_releaseEntry (by decide +kernel)).trans (by rfl),
    by rw [Source.modules, one, older]; rfl⟩

end Source

end ApiSurface
