import ApiSurface.Classpath.Cursor
import ApiSurface.Proofs.Classpath.Names

/-!
What gives out names, told by the names that are ahead of it. A list of names, things one behind another, an
entry and a class path, with cursors or without, all keep the same law: the next name is the first one ahead,
the others stay ahead, and back at the beginning all names are ahead (`Giving.Lawful`). From this law alone
follows what a whole run of requests gives out (`Service.Lawful.run`), and that two class paths with the same
names and sources answer alike (`Service.Lawful.log_eq`).
-/

namespace ApiSurface

/-! ### The law -/

/-- Names are given out in their order, and again in the same order after going back. -/
structure Giving.Lawful {α : Type} (g : Giving α) (all ahead : α → List String) (Valid : α → Prop) : Prop where
  hasNext : ∀ a, Valid a → g.hasNext a = !(ahead a).isEmpty
  name : ∀ a, Valid a → (g.next a).1 = (ahead a).head?
  valid_next : ∀ a, Valid a → Valid (g.next a).2
  all_next : ∀ a, Valid a → all (g.next a).2 = all a
  ahead_next : ∀ a, Valid a → ahead (g.next a).2 = (ahead a).tail
  valid_rewind : ∀ a, Valid a → Valid (g.rewind a)
  all_rewind : ∀ a, Valid a → all (g.rewind a) = all a
  ahead_rewind : ∀ a, Valid a → ahead (g.rewind a) = all a

/-- What is seen through a field keeps the law of the field. -/
theorem Giving.Lawful.lift {α β : Type} {g : Giving α} {all ahead : α → List String} {Valid : α → Prop}
    (law : g.Lawful all ahead Valid) {k : Giving β} (view : β → α)
    (hasNext : ∀ b, k.hasNext b = g.hasNext (view b))
    (next : ∀ b, (k.next b).1 = (g.next (view b)).1 ∧ view (k.next b).2 = (g.next (view b)).2)
    (rewind : ∀ b, view (k.rewind b) = g.rewind (view b)) :
    k.Lawful (fun b => all (view b)) (fun b => ahead (view b)) fun b => Valid (view b) where
  hasNext b valid := by rw [hasNext, law.hasNext _ valid]
  name b valid := by rw [(next b).1, law.name _ valid]
  valid_next b valid := by
    rw [(next b).2]
    exact law.valid_next _ valid
  all_next b valid := by rw [(next b).2, law.all_next _ valid]
  ahead_next b valid := by rw [(next b).2, law.ahead_next _ valid]
  valid_rewind b valid := by
    rw [rewind]
    exact law.valid_rewind _ valid
  all_rewind b valid := by rw [rewind, law.all_rewind _ valid]
  ahead_rewind b valid := by rw [rewind, law.ahead_rewind _ valid]

/-! ### Lists of names -/

/-- The names at the position and behind it. -/
def Lane.ahead (lane : Lane) : List String := lane.names.drop lane.position

/-- A list gives out its names in their order. -/
theorem Lane.lawful : Lane.giving.Lawful Lane.names Lane.ahead fun _ => True where
  hasNext lane _ := by
    by_cases inside : lane.position < lane.names.length
    · simp [Lane.giving, Lane.ahead, inside, List.isEmpty_eq_false_iff.2]
    · have done : lane.names.drop lane.position = [] := List.drop_eq_nil_of_le (Nat.le_of_not_lt inside)
      simp [Lane.giving, Lane.ahead, inside, done]
  name lane _ := by
    simp only [Lane.giving, Lane.ahead, List.head?_drop]
    split <;> rename_i found <;> simp [found]
  valid_next _ _ := trivial
  all_next lane _ := by
    simp only [Lane.giving]
    split <;> rfl
  ahead_next lane _ := by
    simp only [Lane.giving, Lane.ahead, List.tail_drop]
    split
    · rename_i used
      have done : lane.names.length ≤ lane.position := List.getElem?_eq_none_iff.1 used
      rw [List.drop_eq_nil_of_le done, List.drop_eq_nil_of_le (Nat.le_succ_of_le done)]
    · rfl
  valid_rewind _ _ := trivial
  all_rewind _ _ := rfl
  ahead_rewind _ _ := rfl

/-! ### One thing behind another -/

namespace Chain

variable {α : Type} {g : Giving α} {all ahead : α → List String} {Valid : α → Prop}

/-- All things are sound, and those before the cursor have no names ahead. -/
def Sound (ahead : α → List String) (Valid : α → Prop) (c : Chain α) : Prop :=
  (∀ item ∈ c.items, Valid item) ∧ ∀ item ∈ c.items.take c.cursor, ahead item = []

/-- The names of all things. -/
def gather (all : α → List String) (c : Chain α) : List String := c.items.flatMap all

/-- What the search for a name does: the things that it passes over are used up. -/
structure Searched (all ahead : α → List String) (Valid : α → Prop) (items : List α)
    (result : Option String × List α × Nat) : Prop where
  given : result.1 = (items.flatMap ahead).head?
  valid : ∀ item ∈ result.2.1, Valid item
  same : result.2.1.flatMap all = items.flatMap all
  left : result.2.1.flatMap ahead = (items.flatMap ahead).tail
  used : ∀ item ∈ result.2.1.take result.2.2, ahead item = []

theorem searched (law : g.Lawful all ahead Valid) {items : List α} (valid : ∀ item ∈ items, Valid item) :
    Searched all ahead Valid items (nextIn g items) := by
  induction items with
  | nil => constructor <;> simp [nextIn]
  | cons item more ih =>
    have own : Valid item := valid item (by simp)
    have others : ∀ other ∈ more, Valid other := fun other mem => valid other (by simp [mem])
    have name := law.name item own
    have valid' := law.valid_next item own
    have all' := law.all_next item own
    have ahead' := law.ahead_next item own
    rw [nextIn]
    split
    · rename_i given item' next
      rw [next] at name valid' all' ahead'
      cases here : ahead item with
      | nil => simp [here] at name
      | cons first later =>
        rw [here] at name ahead'
        refine ⟨by simpa [here] using name, ?_, by simp [all'], by simp [here, ahead'], by simp⟩
        intro other mem
        rcases List.mem_cons.1 mem with rfl | mem
        · exact valid'
        · exact others other mem
    · rename_i item' next
      rw [next] at name valid' all' ahead'
      have empty : ahead item = [] := List.head?_eq_none_iff.1 name.symm
      have behind := ih others
      rw [empty] at ahead'
      refine ⟨by simpa [empty] using behind.given, ?_, by simp [all', behind.same],
        by simpa [empty, ahead'] using behind.left, ?_⟩
      · intro other mem
        rcases List.mem_cons.1 mem with rfl | mem
        · exact valid'
        · exact behind.valid other mem
      · intro other mem
        rcases List.mem_cons.1 mem with rfl | mem
        · exact ahead'
        · exact behind.used other mem

/-- The names ahead of the cursor are all that are ahead. -/
theorem flatMap_drop {c : Chain α} (valid : c.Sound ahead Valid) :
    (c.items.drop c.cursor).flatMap ahead = c.items.flatMap ahead := by
  have front : (c.items.take c.cursor).flatMap ahead = [] := List.flatMap_eq_nil_iff.2 valid.2
  conv => rhs; rw [← List.take_append_drop c.cursor c.items]
  rw [List.flatMap_append, front, List.nil_append]

/-- What the search behind the cursor does. -/
theorem searched_drop (law : g.Lawful all ahead Valid) {c : Chain α} (valid : c.Sound ahead Valid) :
    Searched all ahead Valid (c.items.drop c.cursor) (nextIn g (c.items.drop c.cursor)) :=
  searched law fun item mem => valid.1 item (List.mem_of_mem_drop mem)

/-- One of some things has a name ahead exactly if there are names ahead. -/
theorem any_hasNext (law : g.Lawful all ahead Valid) {items : List α} (valid : ∀ item ∈ items, Valid item) :
    items.any g.hasNext = !(items.flatMap ahead).isEmpty := by
  induction items with
  | nil => rfl
  | cons item more ih =>
    rw [List.any_cons, law.hasNext item (valid item (by simp)), ih fun other mem => valid other (by simp [mem])]
    cases here : ahead item <;> simp [here]

/-- What is before the cursor after a search was before it already, or was passed over. -/
theorem mem_take_next {item : α} {c : Chain α}
    (mem : item ∈ ((giving g).next c).2.items.take ((giving g).next c).2.cursor) :
    item ∈ c.items.take c.cursor ∨
      item ∈ (nextIn g (c.items.drop c.cursor)).2.1.take (nextIn g (c.items.drop c.cursor)).2.2 := by
  simp only [giving, List.take_append, List.mem_append, List.length_take] at mem
  rcases mem with front | behind
  · exact .inl (List.mem_of_mem_take front)
  · rcases Nat.lt_or_ge c.cursor c.items.length with inside | outside
    · rw [Nat.min_eq_left (Nat.le_of_lt inside), Nat.add_sub_cancel_left] at behind
      exact .inr behind
    · simp [List.drop_eq_nil_of_le outside, nextIn] at behind

/-- Things one behind another give out the names of the first, then those of the second, and so on. -/
theorem lawful (law : g.Lawful all ahead Valid) :
    (Chain.giving g).Lawful (gather all) (gather ahead) (Sound ahead Valid) where
  hasNext c valid := by
    rw [gather, ← flatMap_drop valid]
    exact any_hasNext law fun item mem => valid.1 item (List.mem_of_mem_drop mem)
  name c valid := by
    have found := searched_drop law valid
    rw [gather, ← flatMap_drop valid]
    exact found.given
  valid_next c valid := by
    have found := searched_drop law valid
    refine ⟨fun item mem => ?_, fun item mem => ?_⟩
    · rcases List.mem_append.1 mem with before | behind
      · exact valid.1 item (List.mem_of_mem_take before)
      · exact found.valid item behind
    · rcases mem_take_next mem with before | passed
      · exact valid.2 item before
      · exact found.used item passed
  all_next c valid := by
    have found := searched_drop law valid
    simp only [giving, gather, List.flatMap_append, found.same]
    rw [← List.flatMap_append, List.take_append_drop]
  ahead_next c valid := by
    have found := searched_drop law valid
    have front : (c.items.take c.cursor).flatMap ahead = [] := List.flatMap_eq_nil_iff.2 valid.2
    simp only [giving, gather, List.flatMap_append, found.left, front, List.nil_append, flatMap_drop valid]
  valid_rewind c valid := by
    refine ⟨fun item mem => ?_, by simp [giving]⟩
    obtain ⟨old, inItems, rfl⟩ := List.mem_map.1 mem
    exact law.valid_rewind old (valid.1 old inItems)
  all_rewind c valid := by
    simp only [giving, gather, List.flatMap_map]
    exact List.flatMap_congr fun item mem => law.all_rewind item (valid.1 item mem)
  ahead_rewind c valid := by
    simp only [giving, gather, List.flatMap_map]
    exact List.flatMap_congr fun item mem => law.ahead_rewind item (valid.1 item mem)

/-- A search for a name keeps what is kept by each of the things. -/
theorem map_next {β : Type} {view : α → β} (keeps : ∀ a, view (g.next a).2 = view a) (c : Chain α) :
    ((giving g).next c).2.items.map view = c.items.map view := by
  have inside (items : List α) : (nextIn g items).2.1.map view = items.map view := by
    induction items with
    | nil => rfl
    | cons item more ih =>
      have same := keeps item
      rw [nextIn]
      split
      · rename_i next
        rw [next] at same
        simp [same]
      · rename_i next
        rw [next] at same
        simp [same, ih]
  simp only [giving, List.map_append, inside]
  rw [← List.map_append, List.take_append_drop]

end Chain

/-! ### Entries and class paths with cursors -/

namespace EntryNames

/-- The names of an entry. -/
def all : EntryNames → List String
  | .single lane => lane.names
  | .several lanes => lanes.gather Lane.names

/-- The names that are ahead. -/
def ahead : EntryNames → List String
  | .single lane => lane.ahead
  | .several lanes => lanes.gather Lane.ahead

/-- Directories before the cursor are used up. -/
def Sound : EntryNames → Prop
  | .single _ => True
  | .several lanes => lanes.Sound Lane.ahead fun _ => True

theorem lawful : EntryNames.giving.Lawful all ahead Sound := by
  have one := Lane.lawful
  have many := Chain.lawful Lane.lawful
  constructor <;> rintro (lane | lanes) sound
  · exact one.hasNext lane sound
  · exact many.hasNext lanes sound
  · exact one.name lane sound
  · exact many.name lanes sound
  · exact one.valid_next lane sound
  · exact many.valid_next lanes sound
  · exact one.all_next lane sound
  · exact many.all_next lanes sound
  · exact one.ahead_next lane sound
  · exact many.ahead_next lanes sound
  · exact one.valid_rewind lane sound
  · exact many.valid_rewind lanes sound
  · exact one.all_rewind lane sound
  · exact many.all_rewind lanes sound
  · exact one.ahead_rewind lane sound
  · exact many.ahead_rewind lanes sound

end EntryNames

theorem CursorEntry.lawful : CursorEntry.giving.Lawful (fun e => e.names.all) (fun e => e.names.ahead)
    fun e => e.names.Sound :=
  EntryNames.lawful.lift CursorEntry.names (fun _ => rfl) (fun _ => ⟨rfl, rfl⟩) fun _ => rfl

namespace CursorPath

/-- The names of all entries. -/
def names (cp : CursorPath) : List String := cp.entries.gather fun e => e.names.all

/-- The names that are ahead. -/
def ahead (cp : CursorPath) : List String := cp.entries.gather fun e => e.names.ahead

/-- Entries before the cursor are used up, and in each of them the directories before its cursor. -/
def Sound (cp : CursorPath) : Prop := cp.entries.Sound (fun e => e.names.ahead) fun e => e.names.Sound

theorem lawful_giving : CursorPath.giving.Lawful names ahead Sound :=
  (Chain.lawful CursorEntry.lawful).lift CursorPath.entries (fun _ => rfl) (fun _ => ⟨rfl, rfl⟩) fun _ => rfl

end CursorPath

/-! ### Requests -/

/-- What gives out names in their order and always finds the same. -/
structure Service.Lawful {σ : Type} (s : Service σ) (all ahead : σ → List String) (Valid : σ → Prop) : Prop
    extends s.toGiving.Lawful all ahead Valid where
  find_next : ∀ a, s.find (s.next a).2 = s.find a
  find_rewind : ∀ a, s.find (s.rewind a) = s.find a
  presence : ∀ a name, s.presence a name = .ofResult (s.find a name)

namespace Service.Lawful

variable {σ τ : Type} {s : Service σ} {all ahead : σ → List String} {Valid : σ → Prop}
  {t : Service τ} {all' ahead' : τ → List String} {Valid' : τ → Prop}

/-- What one request keeps. -/
theorem serve (law : s.Lawful all ahead Valid) {a : σ} (valid : Valid a) (request : Request) :
    Valid (s.serve a request).2 ∧ all (s.serve a request).2 = all a ∧
      s.find (s.serve a request).2 = s.find a := by
  cases request with
  | next => exact ⟨law.valid_next a valid, law.all_next a valid, law.find_next a⟩
  | rewind => exact ⟨law.valid_rewind a valid, law.all_rewind a valid, law.find_rewind a⟩
  | hasNext | find | presence => exact ⟨valid, rfl, rfl⟩

/-- One request gives out the first name ahead, or takes everything back, or changes nothing. -/
theorem givenSince_serve (law : s.Lawful all ahead Valid) {a : σ} (valid : Valid a) (request : Request)
    (given : List String) (whole : given ++ ahead a = all a) :
    givenSince given [(request, (s.serve a request).1)] ++ ahead (s.serve a request).2 = all a := by
  cases request with
  | next =>
    have name := law.name a valid
    have later := law.ahead_next a valid
    simp only [Service.serve, Prod.map_fst, Prod.map_snd, id, name, later]
    cases first : ahead a with
    | nil => simpa [givenSince, first] using whole
    | cons first more => simpa [givenSince, first] using whole
  | rewind => simpa [Service.serve, givenSince] using law.ahead_rewind a valid
  | hasNext | find | presence => exact whole

theorem givenSince_cons (given : List String) (entry : Request × Answer) (log : List (Request × Answer)) :
    givenSince given (entry :: log) = givenSince (givenSince given [entry]) log := by
  obtain ⟨request, answer⟩ := entry
  cases request <;> cases answer <;> first | rfl | (rename_i given; cases given <;> rfl)

/-- What a run of requests keeps: the names that were given out since the last time back and those ahead are
all names. -/
theorem run (law : s.Lawful all ahead Valid) (requests : List Request) {a : σ} (valid : Valid a) :
    Valid (s.run a requests).2 ∧ all (s.run a requests).2 = all a ∧ s.find (s.run a requests).2 = s.find a ∧
      ∀ given, given ++ ahead a = all a →
        givenSince given (s.run a requests).1 ++ ahead (s.run a requests).2 = all a := by
  induction requests generalizing a with
  | nil => exact ⟨valid, rfl, rfl, fun given whole => whole⟩
  | cons request more ih =>
    obtain ⟨valid', all', find'⟩ := law.serve valid request
    obtain ⟨valid'', all'', find'', later⟩ := ih valid'
    refine ⟨valid'', all''.trans all', find''.trans find', fun given whole => ?_⟩
    have first := law.givenSince_serve valid request given whole
    rw [← all'] at first ⊢
    simp only [Service.run]
    rw [givenSince_cons]
    exact later _ first

/-- Two class paths with the same names, of which the same are ahead, that find the same answer all requests
alike. -/
theorem log_eq (law : s.Lawful all ahead Valid) (law' : t.Lawful all' ahead' Valid') (requests : List Request)
    {a : σ} {b : τ} (valid : Valid a) (valid' : Valid' b) (names : all a = all' b)
    (later : ahead a = ahead' b) (find : s.find a = t.find b) :
    (s.run a requests).1 = (t.run b requests).1 := by
  induction requests generalizing a b with
  | nil => rfl
  | cons request more ih =>
    have answers : (s.serve a request).1 = (t.serve b request).1 := by
      cases request with
      | next => simp only [Service.serve, Prod.map_fst, law.name a valid, law'.name b valid', later]
      | hasNext => simp only [Service.serve, law.hasNext a valid, law'.hasNext b valid', later]
      | rewind => rfl
      | find name => simp only [Service.serve, find]
      | presence name => simp only [Service.serve, law.presence, law'.presence, find]
    have behind : ahead (s.serve a request).2 = ahead' (t.serve b request).2 := by
      cases request with
      | next => simp only [Service.serve, Prod.map_snd, id, law.ahead_next a valid, law'.ahead_next b valid', later]
      | rewind => simp only [Service.serve, law.ahead_rewind a valid, law'.ahead_rewind b valid', names]
      | hasNext | find | presence => exact later
    obtain ⟨validA, allA, findA⟩ := law.serve valid request
    obtain ⟨validB, allB, findB⟩ := law'.serve valid' request
    simp only [Service.run, answers]
    rw [ih validA validB (allA.trans (names.trans allB.symm)) behind (findA.trans (find.trans findB.symm))]

end Service.Lawful

/-- Requests to a class path that is open. -/
theorem Classpath.lawful (fs : FileSystem) :
    (Classpath.service fs).Lawful Classpath.names Classpath.ahead fun cp => cp.isClosed = false where
  hasNext cp isOpen := by
    have any (entries : List Entry) :
        entries.any Entry.hasNext = !(entries.flatMap fun e => e.listing.ahead).isEmpty := by
      induction entries with
      | nil => rfl
      | cons e more ih => cases here : e.listing.ahead <;> simp [Entry.hasNext, Listing.hasNext, here, ih]
    simp only [service, hasNext, isOpen, any, ahead, Bool.not_false, Bool.true_and]
  name cp isOpen := by
    rcases next?_cases isOpen with ⟨done, empty⟩ | ⟨name, next, found, shape, -⟩
    · simp [service, done, empty]
    · simp [service, found, shape]
  valid_next cp isOpen := by
    rcases next?_cases isOpen with ⟨done, -⟩ | ⟨name, next, found, -, stays⟩
    · simp [service, done, isOpen]
    · simp [service, found, stays]
  all_next cp isOpen := by
    rcases next?_cases isOpen with ⟨done, -⟩ | ⟨name, next, found, -, -⟩
    · simp [service, done]
    · simpa [service, found] using (Walked.next .start found).names.1
  ahead_next cp isOpen := by
    rcases next?_cases isOpen with ⟨done, empty⟩ | ⟨name, next, found, shape, -⟩
    · simp [service, done, empty]
    · simp [service, found, shape]
  valid_rewind cp isOpen := isOpen
  all_rewind cp _ := names_rewind cp
  ahead_rewind cp _ := ahead_rewind cp
  find_next cp := by
    funext name
    cases found : cp.next? with
    | none => simp [service, found]
    | some result => simpa [service, found] using find_congr (next?_spec found).1 fs name
  find_rewind cp := by
    funext name
    exact find_congr (Walked.rewind .start).faces fs name
  presence cp name := rfl

/-- Lookups one after another, seen through a field. -/
theorem firstHit_map {α β : Type} (lookup : β → Except LookupFault Found) (name : String) (view : α → β)
    (items : List α) :
    firstHit (fun a => lookup (view a)) name items = firstHit lookup name (items.map view) := by
  induction items with
  | nil => rfl
  | cons item more ih => simp only [List.map_cons, firstHit, ih]

/-- What is found depends on the sources of the entries only. -/
theorem CursorPath.find_eq (cp : CursorPath) (fs : FileSystem) (name : String) :
    cp.find fs name = firstHit (fun s => s.find fs name) name (cp.entries.items.map CursorEntry.source) :=
  firstHit_map (fun s : Source => s.find fs name) name CursorEntry.source cp.entries.items

/-- Requests to a class path with its cursors. -/
theorem CursorPath.lawful (fs : FileSystem) :
    (CursorPath.service fs).Lawful CursorPath.names CursorPath.ahead CursorPath.Sound where
  toLawful := CursorPath.lawful_giving
  find_next cp := by
    funext name
    have same : ((Chain.giving CursorEntry.giving).next cp.entries).2.items.map CursorEntry.source =
        cp.entries.items.map CursorEntry.source := Chain.map_next (fun _ => rfl) cp.entries
    simp only [service, find_eq]
    exact congrArg _ same
  find_rewind cp := by
    funext name
    simp [service, find_eq, giving, Chain.giving, CursorEntry.giving, Function.comp_def]
  presence cp name := rfl

end ApiSurface
