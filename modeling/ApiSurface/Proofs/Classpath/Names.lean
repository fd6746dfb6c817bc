import ApiSurface.Proofs.Classpath.Owner

/-!
The names of a class path, given out one after another. Main statements: what every entry that is added keeps
holds of a class path that was opened (`openAll_induction`), and from its beginning a class path gives out its
names in their order (`given_rewind`), however far it was walked before.
-/

namespace ApiSurface

namespace Classpath

/-! ### Entries one after another -/

/-- What holds without entries and is kept by every entry that is added holds of a class path that was
opened. -/
theorem openAll_induction (settings : Settings) {P : List Entry → Shadow → Prop} (start : P [] .empty)
    (claim : ∀ entries shadow kind files after p loaded, P entries shadow →
      Loaded.ofKind kind settings files p = (.ok loaded, after) →
      P (entries ++ [(Entry.claim p loaded shadow entries.length).1])
        (Entry.claim p loaded shadow entries.length).2)
    (text : List Char) (fs : FileSystem) :
    P (openAll settings text fs).1.entries (openAll settings text fs).1.shadow ∧
      (openAll settings text fs).1.isClosed = false := by
  suffices each : ∀ ps, P (opened settings fs ps).classpath.entries (opened settings fs ps).classpath.shadow ∧
      (opened settings fs ps).classpath.isClosed = false from each (elements settings text)
  intro ps
  induction ps using List.reverseRecOn with
  | nil => exact ⟨start, rfl⟩
  | append_singleton ps p ih =>
    rw [opened_concat]
    rcases Opening.addOrKeep_cases settings (opened settings fs ps) p with ⟨faults, same⟩ | added
    · rw [same]
      exact ih
    · obtain ⟨kind, files, loaded, found, same⟩ := added
      rw [same]
      exact ⟨claim _ _ kind files _ p loaded ih.1 found, ih.2⟩

theorem isClosed_openAll (settings : Settings) (text : List Char) (fs : FileSystem) :
    (openAll settings text fs).1.isClosed = false :=
  (openAll_induction settings (P := fun _ _ => True) trivial (fun _ _ _ _ _ _ _ _ _ => trivial) text fs).2

/-! ### Names ahead -/

/-- The names that are ahead, in the order in which they are given out. -/
def ahead (cp : Classpath) : List String := cp.entries.flatMap fun e => e.listing.ahead

/-- The names that are given out when at most `limit` of them are asked for. -/
def given : Nat → Classpath → List String
  | 0, _ => []
  | limit + 1, cp =>
    match cp.next? with
    | none => []
    | some (name, next) => name :: given limit next

/-- There is no next name if none is ahead, and else it is the first one ahead. -/
theorem nextOf?_cases (entries : List Entry) :
    (nextOf? entries = none ∧ (entries.flatMap fun e => e.listing.ahead) = []) ∨
    ∃ name after, nextOf? entries = some (name, after) ∧
      (entries.flatMap fun e => e.listing.ahead) = name :: after.flatMap fun e => e.listing.ahead := by
  induction entries with
  | nil => exact .inl ⟨rfl, rfl⟩
  | cons e more ih =>
    cases here : e.listing.ahead with
    | nil =>
      have none : e.next? = none := by simp [Entry.next?, Listing.next?, here]
      rcases ih with ⟨done, empty⟩ | ⟨name, after, next, shape⟩
      · exact .inl ⟨by simp [nextOf?, none, done], by simp [here, empty]⟩
      · exact .inr ⟨name, e :: after, by simp [nextOf?, none, next], by simp [here, shape]⟩
    | cons name names =>
      refine .inr ⟨name, { e with listing := ⟨name :: e.listing.passed, names⟩ } :: more, ?_, ?_⟩
      · simp [nextOf?, Entry.next?, Listing.next?, here]
      · simp [here]

/-- While a class path is open, the next name is the first one ahead, and the others stay ahead. -/
theorem next?_cases {cp : Classpath} (isOpen : cp.isClosed = false) :
    (cp.next? = none ∧ cp.ahead = []) ∨
    ∃ name next, cp.next? = some (name, next) ∧ cp.ahead = name :: next.ahead ∧ next.isClosed = false := by
  rcases nextOf?_cases cp.entries with ⟨done, empty⟩ | ⟨name, after, next, shape⟩
  · exact .inl ⟨by simp [next?, isOpen, done], empty⟩
  · exact .inr ⟨name, { cp with entries := after }, by simp [next?, isOpen, next], shape, isOpen⟩

/-- The names ahead are given out in their order. -/
theorem given_eq_ahead {cp : Classpath} (isOpen : cp.isClosed = false) {limit : Nat}
    (enough : cp.ahead.length ≤ limit) : cp.given limit = cp.ahead := by
  induction limit generalizing cp with
  | zero =>
    rw [List.length_eq_zero_iff.1 (Nat.le_zero.1 enough)]
    rfl
  | succ limit ih =>
    rcases next?_cases isOpen with ⟨done, empty⟩ | ⟨name, next, found, shape, stays⟩
    · rw [given, done, empty]
    · rw [shape, List.length_cons] at enough
      rw [given, found, shape, ← ih stays (by omega)]

/-- Back at the beginning all names are ahead. -/
theorem ahead_rewind (cp : Classpath) : cp.rewind.ahead = cp.names := by
  simp [ahead, names, rewind, List.flatMap_map, Entry.rewind, Listing.rewind, Listing.ofNames]

/-! ### Walks -/

/-- However names were given out, the names are the same, and an open class path stays open. -/
theorem Walked.names {cp walked : Classpath} (reached : Walked cp walked) :
    walked.names = cp.names ∧ walked.isClosed = cp.isClosed := by
  have all (entries : List Entry) : (entries.flatMap fun e => e.listing.all) =
      (entries.map face).flatMap Prod.snd := by
    rw [List.flatMap_map]
    rfl
  refine ⟨by rw [Classpath.names, Classpath.names, all, all, reached.faces], ?_⟩
  induction reached with
  | start => rfl
  | next _ found ih =>
    rw [← ih]
    unfold next? at found
    split at found
    · cases found
    · obtain ⟨⟨_, entries⟩, -, same⟩ := Option.map_eq_some_iff.1 found
      cases same
      rfl
  | rewind _ ih => exact ih

/-- From its beginning an open class path gives out its names in their order. -/
theorem given_rewind {cp walked : Classpath} (isOpen : cp.isClosed = false) (reached : Walked cp walked)
    {limit : Nat} (enough : cp.names.length ≤ limit) : walked.rewind.given limit = cp.names := by
  obtain ⟨same, stays⟩ := reached.names
  have all : walked.rewind.ahead = cp.names := by rw [ahead_rewind, same]
  rw [given_eq_ahead (show walked.rewind.isClosed = false from stays.trans isOpen) (by rw [all]; exact enough), all]

end Classpath
end ApiSurface
