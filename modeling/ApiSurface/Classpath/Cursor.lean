import ApiSurface.Classpath.Basic

/-!
Cursors of a class path. An entry keeps a position in its list of names; a module image keeps a list and a
position for each of its directories and a cursor that passes over the directories that are used up; the
class path keeps one more cursor that passes over the entries that are used up. The lists are claimed with
one number for each entry, so all directories of a module image have the number of the image.
-/

namespace ApiSurface

/-- How something gives out names. -/
structure Giving (α : Type) where
  hasNext : α → Bool
  /-- The next name, if there is one, and what is left. -/
  next : α → Option String × α
  rewind : α → α

/-! ### One list of names -/

/-- Names of which those before the position were given out. -/
structure Lane where
  names : List String
  position : Nat
  deriving DecidableEq, Repr

/-- Names are given out in their order. -/
def Lane.giving : Giving Lane where
  hasNext lane := decide (lane.position < lane.names.length)
  next lane :=
    match lane.names[lane.position]? with
    | none => (none, lane)
    | some name => (some name, { lane with position := lane.position + 1 })
  rewind lane := { lane with position := 0 }

/-! ### One thing behind another -/

/-- Things that give out names, of which those before the cursor are used up. -/
structure Chain (α : Type) where
  items : List α
  cursor : Nat
  deriving DecidableEq, Repr

namespace Chain

variable {α : Type}

/-- The first name that one of some things gives out, and how many things before it are used up. -/
def nextIn (g : Giving α) : List α → Option String × List α × Nat
  | [] => (none, [], 0)
  | item :: more =>
    match g.next item with
    | (some name, item) => (some name, item :: more, 0)
    | (none, item) =>
      let (name, more, used) := nextIn g more
      (name, item :: more, used + 1)

/-- Names are given out by the things behind the cursor, which passes over those that are used up. -/
def giving (g : Giving α) : Giving (Chain α) where
  hasNext c := (c.items.drop c.cursor).any g.hasNext
  next c :=
    let (name, rest, used) := nextIn g (c.items.drop c.cursor)
    (name, ⟨c.items.take c.cursor ++ rest, c.cursor + used⟩)
  rewind c := ⟨c.items.map g.rewind, 0⟩

end Chain

/-! ### Entries -/

/-- The names of an entry: one list of them, or one for each directory of a module image. -/
inductive EntryNames where
  | single (lane : Lane)
  | several (lanes : Chain Lane)
  deriving DecidableEq, Repr

/-- What an entry offers before any name is claimed. -/
inductive Offer where
  | single (names : List String)
  | several (directories : List (List String))
  deriving DecidableEq, Repr

/-- All names that are offered, one after another. -/
def Offer.names : Offer → List String
  | .single names => names
  | .several directories => directories.flatten

/-- Claims the names of several directories for one entry, directory after directory. -/
def Shadow.claimEach (s : Shadow) : List (List String) → Nat → List (List String) × Shadow
  | [], _ => ([], s)
  | names :: more, entry =>
    let (gained, s) := s.claimAll names entry
    let (others, s) := s.claimEach more entry
    (gained :: others, s)

namespace EntryNames

/-- Claims what is offered for an entry. -/
def claim (s : Shadow) (offer : Offer) (entry : Nat) : EntryNames × Shadow :=
  match offer with
  | .single names =>
    let (gained, s) := s.claimAll names entry
    (.single ⟨gained, 0⟩, s)
  | .several directories =>
    let (gained, s) := s.claimEach directories entry
    (.several ⟨gained.map (⟨·, 0⟩), 0⟩, s)

/-- An entry gives out the names of its list or of its directories. -/
def giving : Giving EntryNames where
  hasNext
    | .single lane => Lane.giving.hasNext lane
    | .several lanes => (Chain.giving Lane.giving).hasNext lanes
  next
    | .single lane => (Lane.giving.next lane).map id .single
    | .several lanes => ((Chain.giving Lane.giving).next lanes).map id .several
  rewind
    | .single lane => .single (Lane.giving.rewind lane)
    | .several lanes => .several ((Chain.giving Lane.giving).rewind lanes)

end EntryNames

/-! ### Class paths -/

/-- A source that was opened, with what it offers. -/
structure Offering where
  location : Path
  source : Source
  offer : Offer

/-- The source with all names that it offers. -/
def Offering.loaded (o : Offering) : Loaded := ⟨o.source, o.offer.names⟩

/-- A class path to which a source is added that was opened. -/
def Classpath.addOffering (cp : Classpath) (o : Offering) : Classpath :=
  let (e, shadow) := Entry.claim o.location o.loaded cp.shadow cp.entries.length
  { cp with entries := cp.entries ++ [e], shadow }

/-- A class path of sources that were opened one after another. -/
def Classpath.ofOfferings (offerings : List Offering) : Classpath :=
  offerings.foldl Classpath.addOffering .empty

/-- An entry with its cursors. -/
structure CursorEntry where
  source : Source
  names : EntryNames

/-- An entry gives out its names. -/
def CursorEntry.giving : Giving CursorEntry where
  hasNext e := EntryNames.giving.hasNext e.names
  next e := (EntryNames.giving.next e.names).map id fun names => { e with names }
  rewind e := { e with names := EntryNames.giving.rewind e.names }

/-- A class path with its cursors. -/
structure CursorPath where
  entries : Chain CursorEntry
  shadow : Shadow

namespace CursorPath

/-- A class path without entries. -/
def empty : CursorPath := ⟨⟨[], 0⟩, .empty⟩

/-- A class path to which a source is added that was opened. -/
def addOffering (cp : CursorPath) (o : Offering) : CursorPath :=
  let (names, shadow) := EntryNames.claim cp.shadow o.offer cp.entries.items.length
  ⟨⟨cp.entries.items ++ [⟨o.source, names⟩], cp.entries.cursor⟩, shadow⟩

/-- A class path of sources that were opened one after another. -/
def ofOfferings (offerings : List Offering) : CursorPath := offerings.foldl addOffering empty

/-- A class path gives out the names of its entries. -/
def giving : Giving CursorPath where
  hasNext cp := (Chain.giving CursorEntry.giving).hasNext cp.entries
  next cp := ((Chain.giving CursorEntry.giving).next cp.entries).map id fun entries => { cp with entries }
  rewind cp := { cp with entries := (Chain.giving CursorEntry.giving).rewind cp.entries }

/-- What the first entry that has something has for the name of a class. -/
def find (cp : CursorPath) (fs : FileSystem) (name : String) : Except LookupFault Found :=
  firstHit (fun e => e.source.find fs name) name cp.entries.items

end CursorPath

/-! ### Requests -/

/-- What can be asked of a class path. -/
inductive Request where
  | next | hasNext | rewind
  | find (name : String)
  | presence (name : String)
  deriving DecidableEq, Repr

/-- What a class path answers. -/
inductive Answer where
  | name (given : Option String)
  | flag (isThere : Bool)
  | done
  | found (result : Except LookupFault Found)
  | presence (p : Presence)

/-- Something that gives out names and looks them up. -/
structure Service (σ : Type) extends Giving σ where
  find : σ → String → Except LookupFault Found
  presence : σ → String → Presence

namespace Service

variable {σ : Type}

/-- The answer to a request, and what is left. -/
def serve (s : Service σ) (state : σ) : Request → Answer × σ
  | .next => (s.next state).map .name id
  | .hasNext => (.flag (s.hasNext state), state)
  | .rewind => (.done, s.rewind state)
  | .find name => (.found (s.find state name), state)
  | .presence name => (.presence (s.presence state name), state)

/-- Requests one after another, each with its answer, and what is left in the end. -/
def run (s : Service σ) (state : σ) : List Request → List (Request × Answer) × σ
  | [] => ([], state)
  | request :: more =>
    let (answer, state) := s.serve state request
    let (log, state) := s.run state more
    ((request, answer) :: log, state)

end Service

/-- The requests to a class path. -/
def Classpath.service (fs : FileSystem) : Service Classpath where
  hasNext := Classpath.hasNext
  next cp := (cp.next?.map Prod.fst, (cp.next?.map Prod.snd).getD cp)
  rewind := Classpath.rewind
  find cp := cp.find fs
  presence cp := cp.presence fs

/-- How well a class is known of which this was found. -/
def Presence.ofResult : Except LookupFault Found → Presence
  | .error _ => .notFound
  | .ok found =>
    match found.describe with
    | .ok _ => .description
    | .error _ => .bytecodeOnly

/-- The requests to a class path with its cursors. -/
def CursorPath.service (fs : FileSystem) : Service CursorPath where
  toGiving := CursorPath.giving
  find cp := cp.find fs
  presence cp name := .ofResult (cp.find fs name)

/-- The names that were given out since the class path was last taken back to its beginning, when these were
given out before. -/
def givenSince (given : List String) : List (Request × Answer) → List String
  | [] => given
  | (.rewind, _) :: more => givenSince [] more
  | (.next, .name (some name)) :: more => givenSince (given ++ [name]) more
  | _ :: more => givenSince given more

end ApiSurface
