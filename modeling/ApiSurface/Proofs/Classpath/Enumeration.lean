import ApiSurface.Proofs.Classpath.Cursor

/-!
The names that a class path gives out. Its entries claim what they offer one after another, so the names
are all that are offered, each at its first place, and each is owned by the first entry that offers it
(`names_ofOfferings`, `owner?_ofOfferings`). Main statement: whatever is asked in whatever order, the names
given out since the class path was last taken back to its beginning are the first ones of this sequence, and
the cursors of entries and directories make no difference (`requests_ofOfferings`).
-/

namespace ApiSurface

/-! ### Claims -/

namespace Shadow

/-- The names that are gained are those that nobody owned before, each at its first place. -/
theorem claimAll_eq (s : Shadow) (names : List String) (entry : Nat) :
    (s.claimAll names entry).1 = (names.filter fun name => (s.owner? name).isNone).eraseDups := by
  induction names generalizing s with
  | nil => rfl
  | cons name more ih =>
    rw [claimAll]
    cases owned : s.owner? name with
    | some owner => simp [claim, owned, ih]
    | none =>
      have others (other : String) : ((s.claim name entry).2.owner? other).isNone =
          (!(other == name) && (s.owner? other).isNone) := by
        by_cases same : other = name
        · subst same
          simp [owner?_claim owned]
        · simp [owner?_claim_of_ne same, same]
      simp only [claim, owned, Option.isSome_none, Bool.false_eq_true, if_false] at others ⊢
      rw [ih]
      simp only [others, List.filter_cons, owned, Option.isNone_none, if_true, List.eraseDups_cons,
        List.filter_filter]

/-- Names of two lists are claimed one list after the other. -/
theorem claimAll_append (s : Shadow) (names others : List String) (entry : Nat) :
    s.claimAll (names ++ others) entry =
      ((s.claimAll names entry).1 ++ ((s.claimAll names entry).2.claimAll others entry).1,
        ((s.claimAll names entry).2.claimAll others entry).2) := by
  induction names generalizing s with
  | nil => rfl
  | cons name more ih =>
    rw [List.cons_append, claimAll, claimAll]
    split
    · rw [ih]
      rfl
    · rw [ih]

/-- The names of several directories are claimed for one entry as if they were in one list. -/
theorem claimEach_flatten (s : Shadow) (directories : List (List String)) (entry : Nat) :
    ((s.claimEach directories entry).1.flatten, (s.claimEach directories entry).2) =
      s.claimAll directories.flatten entry := by
  induction directories generalizing s with
  | nil => rfl
  | cons names more ih =>
    rw [List.flatten_cons, claimAll_append, ← ih]
    rfl

end Shadow

/-- An entry with cursors lists what an entry without them lists, and leaves the same owners. -/
theorem EntryNames.claim_eq (s : Shadow) (offer : Offer) (entry : Nat) :
    (claim s offer entry).1.Sound ∧
      (claim s offer entry).1.all = (s.claimAll offer.names entry).1 ∧
      (claim s offer entry).1.ahead = (s.claimAll offer.names entry).1 ∧
      (claim s offer entry).2 = (s.claimAll offer.names entry).2 := by
  cases offer with
  | single names => exact ⟨trivial, rfl, rfl, rfl⟩
  | several directories =>
    obtain ⟨gained, owners⟩ := Prod.mk.inj (s.claimEach_flatten directories entry)
    refine ⟨⟨fun _ _ => trivial, fun _ mem => by simp at mem⟩, ?_, ?_, owners⟩
    · simp [claim, all, Chain.gather, Offer.names, ← gained, List.flatMap_map, List.flatMap_id']
    · simp [claim, ahead, Chain.gather, Offer.names, ← gained, List.flatMap_map, Lane.ahead, List.flatMap_id']

/-- Without its later copies a list has nothing twice. -/
theorem nodup_eraseDups (l : List String) : l.eraseDups.Nodup := by
  induction l using List.reverseRecOn with
  | nil => exact List.nodup_nil
  | append_singleton l name ih =>
    rw [List.eraseDups_append]
    by_cases again : name ∈ l
    · simpa [List.removeAll, again] using ih
    · have last : (List.removeAll [name] l).eraseDups = [name] := by simp [List.removeAll, again, List.eraseDups_cons]
      rw [last]
      exact ih.append (List.nodup_singleton name) (by simpa using again)

namespace Classpath

/-! ### Sources one after another -/

theorem ofOfferings_concat (offerings : List Offering) (o : Offering) :
    ofOfferings (offerings ++ [o]) = (ofOfferings offerings).addOffering o := by
  simp [ofOfferings]

theorem isClosed_ofOfferings (offerings : List Offering) : (ofOfferings offerings).isClosed = false := by
  induction offerings using List.reverseRecOn with
  | nil => rfl
  | append_singleton offerings o ih => rw [ofOfferings_concat, addOffering, ih]

theorem length_entries_ofOfferings (offerings : List Offering) :
    (ofOfferings offerings).entries.length = offerings.length := by
  induction offerings using List.reverseRecOn with
  | nil => rfl
  | append_singleton offerings o ih => simp [ofOfferings_concat, addOffering, ih]

/-- The owner of a name is the first entry that offers it. -/
theorem owner?_ofOfferings (offerings : List Offering) (name : String) :
    (ofOfferings offerings).shadow.owner? name = offerings.findIdx? fun o => o.offer.names.contains name := by
  induction offerings using List.reverseRecOn with
  | nil => rfl
  | append_singleton offerings o ih =>
    have claimed := (ofOfferings offerings).shadow.owner?_claimAll o.offer.names offerings.length name
    rw [ofOfferings_concat, List.findIdx?_append, ← ih]
    simp only [addOffering, length_entries_ofOfferings]
    refine claimed.trans ?_
    by_cases mem : name ∈ o.offer.names <;> simp [List.findIdx?_cons, mem]

/-- The names that are offered behind other entries and by none of these, each at its first place. -/
def firstOffered (earlier : List Offering) (o : Offering) : List String :=
  (o.offer.names.filter fun name => decide (∀ other ∈ earlier, name ∉ other.offer.names)).eraseDups

theorem mem_firstOffered {earlier : List Offering} {o : Offering} {name : String} :
    name ∈ firstOffered earlier o ↔ name ∈ o.offer.names ∧ ∀ other ∈ earlier, name ∉ other.offer.names := by
  simp [firstOffered]

/-- One more entry gains the names that it is the first to offer. -/
theorem gained_ofOfferings (offerings : List Offering) (o : Offering) (index : Nat) :
    ((ofOfferings offerings).shadow.claimAll o.offer.names index).1 = firstOffered offerings o := by
  have free (name : String) : ((ofOfferings offerings).shadow.owner? name).isNone =
      decide (∀ other ∈ offerings, name ∉ other.offer.names) := by
    rw [owner?_ofOfferings, Bool.eq_iff_iff, Option.isNone_iff_eq_none, List.findIdx?_eq_none_iff]
    simp
  simp only [Shadow.claimAll_eq, free, firstOffered]

/-- What an entry lists: the names that it is the first to offer. -/
theorem getElem?_ofOfferings (offerings : List Offering) (i : Nat) :
    (ofOfferings offerings).entries[i]?.map face =
      offerings[i]?.map fun o => (o.source, firstOffered (offerings.take i) o) := by
  induction offerings using List.reverseRecOn with
  | nil => rfl
  | append_singleton offerings o ih =>
    have length := length_entries_ofOfferings offerings
    have gained := gained_ofOfferings offerings o offerings.length
    rw [ofOfferings_concat, addOffering]
    dsimp only
    rcases Nat.lt_trichotomy i offerings.length with before | rfl | behind
    · rw [List.getElem?_append_left (by omega), List.getElem?_append_left before, ih,
        List.take_append_of_le_length (Nat.le_of_lt before)]
    · rw [List.getElem?_append_right (by omega), List.getElem?_append_right (by omega), List.take_left, length,
        Nat.sub_self]
      exact congrArg some (Prod.ext rfl gained)
    · rw [List.getElem?_eq_none (by simp; omega), List.getElem?_eq_none (by simp; omega)]
      rfl

/-- The names are all that are offered, each at its first place. -/
theorem names_ofOfferings (offerings : List Offering) :
    (ofOfferings offerings).names = (offerings.flatMap fun o => o.offer.names).eraseDups := by
  induction offerings using List.reverseRecOn with
  | nil => rfl
  | append_singleton offerings o ih =>
    have gained := gained_ofOfferings offerings o (ofOfferings offerings).entries.length
    have one : (ofOfferings (offerings ++ [o])).names = (ofOfferings offerings).names ++ firstOffered offerings o := by
      rw [ofOfferings_concat, ← gained]
      simp [names, addOffering, Entry.all_listing_claim, Offering.loaded]
    rw [one, ih, List.flatMap_append, List.eraseDups_append, List.flatMap_singleton]
    simp only [firstOffered, List.removeAll]
    congr 2
    refine List.filter_congr fun name _ => ?_
    rw [Bool.eq_iff_iff]
    simp

/-- An entry lists a name exactly if it owns it. -/
theorem owner?_ofOfferings_iff (offerings : List Offering) (name : String) (i : Nat) :
    (ofOfferings offerings).shadow.owner? name = some i ↔
      ∃ e, (ofOfferings offerings).entries[i]? = some e ∧ name ∈ e.listing.all := by
  have listed := getElem?_ofOfferings offerings i
  rw [owner?_ofOfferings, List.findIdx?_eq_some_iff_getElem]
  constructor
  · rintro ⟨inside, offered, first⟩
    rw [List.getElem?_eq_getElem inside, Option.map_some] at listed
    obtain ⟨e, there, shape⟩ := Option.map_eq_some_iff.1 listed
    have all : e.listing.all = firstOffered (offerings.take i) offerings[i] := congrArg Prod.snd shape
    refine ⟨e, there, ?_⟩
    rw [all, mem_firstOffered]
    refine ⟨by simpa using offered, fun other early => ?_⟩
    obtain ⟨j, before, rfl⟩ := List.mem_take_iff_getElem.1 early
    simpa using first j (by omega)
  · rintro ⟨e, there, mem⟩
    rw [there, Option.map_some] at listed
    obtain ⟨o, found, shape⟩ := Option.map_eq_some_iff.1 listed.symm
    obtain ⟨inside, rfl⟩ := List.getElem?_eq_some_iff.1 found
    have all : firstOffered (offerings.take i) offerings[i] = e.listing.all := congrArg Prod.snd shape
    rw [← all, mem_firstOffered] at mem
    refine ⟨inside, by simpa using mem.1, fun j before => ?_⟩
    have early : offerings[j] ∈ offerings.take i := List.mem_take_iff_getElem.2 ⟨j, by omega, rfl⟩
    simpa using mem.2 _ early

end Classpath

/-! ### The same with cursors -/

namespace CursorPath

/-- A class path with cursors has the same names, sources and owners as one without. -/
structure Alike (w : CursorPath) (cp : Classpath) : Prop where
  sound : w.Sound
  fresh : w.entries.cursor = 0
  faces : (w.entries.items.map fun e => (e.source, e.names.all)) = cp.entries.map Classpath.face
  unused : w.ahead = w.names
  owners : w.shadow = cp.shadow

theorem Alike.addOffering {w : CursorPath} {cp : Classpath} (alike : w.Alike cp) (o : Offering) :
    (w.addOffering o).Alike (cp.addOffering o) := by
  have length : w.entries.items.length = cp.entries.length := by
    simpa using congrArg List.length alike.faces
  obtain ⟨sound, all, later, owners⟩ := EntryNames.claim_eq w.shadow o.offer w.entries.items.length
  have lists := later.trans all.symm
  refine ⟨⟨fun e mem => ?_, ?_⟩, alike.fresh, ?_, ?_, ?_⟩
  · rcases List.mem_append.1 mem with old | new
    · exact alike.sound.1 e old
    · obtain rfl := List.mem_singleton.1 new
      exact sound
  · simp [CursorPath.addOffering, alike.fresh]
  · rw [length, alike.owners] at all
    simp only [CursorPath.addOffering, Classpath.addOffering, List.map_append, alike.faces, List.map_cons,
      List.map_nil, length, alike.owners, all]
    rfl
  · have before : (w.entries.items.flatMap fun e => e.names.ahead) = w.entries.items.flatMap fun e => e.names.all :=
      alike.unused
    have whole : ((w.addOffering o).entries.items.flatMap fun e => e.names.ahead) =
        (w.addOffering o).entries.items.flatMap fun e => e.names.all := by
      simp only [CursorPath.addOffering, List.flatMap_append, before, lists, List.flatMap_singleton]
    exact whole
  · rw [length, alike.owners] at owners
    simp only [CursorPath.addOffering, Classpath.addOffering, length, alike.owners, owners]
    rfl

theorem alike_ofOfferings (offerings : List Offering) :
    (ofOfferings offerings).Alike (Classpath.ofOfferings offerings) := by
  induction offerings using List.reverseRecOn with
  | nil => exact ⟨⟨fun _ mem => absurd mem (by simp [ofOfferings, empty]), fun _ mem => absurd mem
      (by simp [ofOfferings, empty])⟩, rfl, rfl, rfl, rfl⟩
  | append_singleton offerings o ih =>
    have one : ofOfferings (offerings ++ [o]) = (ofOfferings offerings).addOffering o := by simp [ofOfferings]
    rw [Classpath.ofOfferings_concat, one]
    exact ih.addOffering o

theorem Alike.names_eq {w : CursorPath} {cp : Classpath} (alike : w.Alike cp) : w.names = cp.names := by
  have all := congrArg (List.flatMap Prod.snd) alike.faces
  rw [List.flatMap_map, List.flatMap_map] at all
  exact all

theorem Alike.find_eq {w : CursorPath} {cp : Classpath} (alike : w.Alike cp) (fs : FileSystem) :
    w.find fs = cp.find fs := by
  funext name
  have sources := congrArg (List.map Prod.fst) alike.faces
  rw [List.map_map, List.map_map] at sources
  have without : cp.find fs name = firstHit (fun s => s.find fs name) name (cp.entries.map Entry.source) :=
    firstHit_map (fun s : Source => s.find fs name) name Entry.source cp.entries
  rw [CursorPath.find_eq, without]
  exact congrArg _ sources

end CursorPath

/-! ### Runs of requests -/

namespace Classpath

/-- Before any request all names are ahead. -/
theorem ahead_ofOfferings (offerings : List Offering) :
    (ofOfferings offerings).ahead = (ofOfferings offerings).names := by
  induction offerings using List.reverseRecOn with
  | nil => rfl
  | append_singleton offerings o ih =>
    have before := ih
    rw [ahead, names] at before
    rw [ofOfferings_concat]
    simp only [ahead, names, addOffering, List.flatMap_append, before]
    rfl

/-- A class path that was opened has the entries and the owners of sources that were opened one after another. -/
theorem openAll_eq_ofOfferings (settings : Settings) (text : List Char) (fs : FileSystem) :
    ∃ offerings, (openAll settings text fs).1.entries = (ofOfferings offerings).entries ∧
      (openAll settings text fs).1.shadow = (ofOfferings offerings).shadow := by
  let P (entries : List Entry) (shadow : Shadow) : Prop := ∃ offerings,
    entries = (ofOfferings offerings).entries ∧ shadow = (ofOfferings offerings).shadow
  have start : P [] .empty := ⟨[], rfl, rfl⟩
  refine (openAll_induction settings (P := P) start ?_ text fs).1
  rintro entries shadow kind files after p loaded ⟨offerings, rfl, rfl⟩ -
  refine ⟨offerings ++ [⟨p, loaded.source, .single loaded.names⟩], ?_⟩
  rw [ofOfferings_concat]
  exact ⟨rfl, rfl⟩

/-- A class path that was opened has each name once. -/
theorem nodup_names (settings : Settings) (text : List Char) (fs : FileSystem) :
    (openAll settings text fs).1.names.Nodup := by
  obtain ⟨offerings, entries, -⟩ := openAll_eq_ofOfferings settings text fs
  have same : (openAll settings text fs).1.names = (ofOfferings offerings).names := by rw [names, entries, names]
  rw [same, names_ofOfferings]
  exact nodup_eraseDups _

/-- **Enumeration is exact.** Sources that were opened claim what they offer one after another. The names of
the class path are what each entry lists, one entry behind the other: an entry lists what it is the first to
offer and owns just this, no name occurs twice, and every name that is offered occurs. Whatever is asked, the
names given out since the class path was last at its beginning are the first ones of this sequence, the next
name is the one behind them, and it is said to be there exactly if there is one. Lookups change nothing. With
the cursors of entries and directories all owners and answers are the same. -/
theorem requests_ofOfferings (fs : FileSystem) (offerings : List Offering) (requests : List Request) :
    let cp := ofOfferings offerings
    let log := ((service fs).run cp requests).1
    let after := ((service fs).run cp requests).2
    (cp.names = cp.entries.flatMap (fun e => e.listing.all) ∧
      (∀ i, cp.entries[i]?.map (fun e => e.listing.all) =
        offerings[i]?.map (firstOffered (offerings.take i))) ∧
      (∀ name i, cp.shadow.owner? name = some i ↔ ∃ e, cp.entries[i]? = some e ∧ name ∈ e.listing.all) ∧
      cp.names.Nodup ∧ ∀ name, name ∈ cp.names ↔ ∃ o ∈ offerings, name ∈ o.offer.names) ∧
    (∃ rest, givenSince [] log ++ rest = cp.names ∧ after.next?.map Prod.fst = rest.head?) ∧
    after.hasNext = after.next?.isSome ∧
    (∀ name, ((service fs).serve after (.find name)).2 = after ∧
      ((service fs).serve after (.presence name)).2 = after) ∧
    (CursorPath.ofOfferings offerings).shadow = cp.shadow ∧
    ((CursorPath.service fs).run (CursorPath.ofOfferings offerings) requests).1 = log := by
  intro cp log after
  have law := Classpath.lawful fs
  have alike := CursorPath.alike_ofOfferings offerings
  have isOpen : cp.isClosed = false := isClosed_ofOfferings offerings
  have fresh : cp.ahead = cp.names := ahead_ofOfferings offerings
  obtain ⟨stays, all, -, later⟩ := law.run requests isOpen
  have name : after.next?.map Prod.fst = after.ahead.head? := law.name after stays
  refine ⟨⟨rfl, fun i => ?_, fun name i => owner?_ofOfferings_iff offerings name i, ?_, fun name => ?_⟩,
    ⟨after.ahead, later [] fresh, name⟩, ?_, fun name => ⟨rfl, rfl⟩, alike.owners, ?_⟩
  · have listed := congrArg (Option.map Prod.snd) (getElem?_ofOfferings offerings i)
    rwa [Option.map_map, Option.map_map] at listed
  · rw [names_ofOfferings]
    exact nodup_eraseDups _
  · rw [names_ofOfferings, List.mem_eraseDups, List.mem_flatMap]
  · have flag : after.hasNext = !after.ahead.isEmpty := law.hasNext after stays
    rw [flag, ← Option.isSome_map (f := Prod.fst), name]
    cases after.ahead <;> rfl
  · exact (CursorPath.lawful fs).log_eq law requests alike.sound isOpen alike.names_eq
      (alike.unused.trans (alike.names_eq.trans fresh.symm)) (alike.find_eq fs)

end Classpath
end ApiSurface
