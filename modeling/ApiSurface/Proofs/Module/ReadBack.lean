import ApiSurface.Module.Markup
import ApiSurface.Proofs.Markup.Tag
import ApiSurface.Proofs.Ordered

/-!
Module blocks written and read. Main statement: every module is read back from its block
(`ofMarkup_toMarkup`). The reader is followed line by line: each line of the block is one event, and what
the event adds is the next entry of a listing, which is in ascending order.
-/

namespace ApiSurface

open ApiSurface.Text

namespace ModuleDescription

/-! ### Entries in ascending order -/

/-- The map with one more entry, added key first and then text by text. -/
def addEntry (m : Ordered.Map String (Ordered.Set String)) (entry : String × Ordered.Set String) :
    Ordered.Map String (Ordered.Set String) :=
  entry.2.toList.foldl (fun m text => addTo m entry.1 text) (addKey m entry.1)

theorem foldl_addTo {m : Ordered.Map String (Ordered.Set String)} {k : String} {set : Ordered.Set String}
    {l : List (String × Ordered.Set String)} (less : ∀ x ∈ l, compare x.1 k = .lt)
    (shape : m.toList = l ++ [(k, set)]) (texts : List String) :
    (texts.foldl (fun m text => addTo m k text) m).toList =
      l ++ [(k, texts.foldl Ordered.Set.insert set)] := by
  induction texts generalizing m set with
  | nil => exact shape
  | cons t texts ih =>
    refine ih ?_
    simp only [addTo, Ordered.Map.alter, shape, Ordered.Map.place_of_last less]
    rfl

/-- An entry with a greater key comes last. -/
theorem toList_addEntry {m : Ordered.Map String (Ordered.Set String)}
    {entry : String × Ordered.Set String} (less : ∀ x ∈ m.toList, compare x.1 entry.1 = .lt) :
    (addEntry m entry).toList = m.toList ++ [entry] := by
  have key : (addKey m entry.1).toList = m.toList ++ [(entry.1, ∅)] :=
    Ordered.Map.place_of_greater less
  have whole : entry.2.toList.foldl Ordered.Set.insert ∅ = entry.2 := Ordered.Set.ofList_toList entry.2
  rw [addEntry, foldl_addTo less key, whole]

theorem toList_foldl_addEntry (entries : List (String × Ordered.Set String))
    {m : Ordered.Map String (Ordered.Set String)}
    (ascending : (m.toList ++ entries).Pairwise fun a b => compare a.1 b.1 = .lt) :
    (entries.foldl addEntry m).toList = m.toList ++ entries := by
  induction entries generalizing m with
  | nil => simp
  | cons entry entries ih =>
    have less : ∀ x ∈ m.toList, compare x.1 entry.1 = .lt := fun x mem =>
      (List.pairwise_append.1 ascending).2.2 x mem entry (by simp)
    have step := toList_addEntry less
    rw [List.foldl_cons, ih (by rw [step]; simpa using ascending), step]
    simp

/-- The entries of a map, added in their order, are the map. -/
theorem foldl_addEntry (m : Ordered.Map String (Ordered.Set String)) :
    m.toList.foldl addEntry ∅ = m := by
  have same := toList_foldl_addEntry m.toList (m := ∅) (by simpa [EmptyCollection.emptyCollection,
    Ordered.Map.empty] using m.ascending)
  cases m
  cases chars : List.foldl addEntry ∅ _
  simp_all [EmptyCollection.emptyCollection, Ordered.Map.empty]

/-! ### Blocks as events -/

/-- A module being read, with nothing open inside it. -/
def Draft.of (m : ModuleDescription) : Draft := ⟨some m, none, none⟩

/-- What becomes of a draft by the events of a text, inside these open elements. -/
def Yields (d : Draft) (parents : List (List Char)) (cs : List Char) (final : Draft) : Prop :=
  ∀ limit, cs.length < limit → d.run (Markup.eventsFrom limit parents cs) = .ok final

/-- A line of the block behind the line before it. -/
def nextLine (line : List Char) : List Char := '\n' :: line

theorem yields_nil (d : Draft) (parents : List (List Char)) : Yields d parents [] d := by
  intro limit enough
  obtain ⟨limit, rfl⟩ : ∃ n, limit = n + 1 := ⟨limit - 1, by simp at enough; omega⟩
  rfl

instance : DecidablePred Markup.PlainName := fun _ => inferInstanceAs (Decidable (_ ∧ _))

theorem notMem_indent (depth : Nat) : '<' ∉ '\n' :: List.replicate (2 * depth) ' ' := by
  simp

/-- An element on a line of its own. -/
theorem Yields.emptyTag {d d' final : Draft} {parents : List (List Char)} {rest : List Char} {depth : Nat}
    {name : String} {as : List (String × String)} (plain : Markup.PlainTag name as)
    (opens : d.opens name (as.map .ofPair) true = .ok d') (later : Yields d' parents rest final) :
    Yields d parents (nextLine (indented depth (Markup.emptyTag name as)) ++ rest) final := by
  intro limit enough
  have whole : nextLine (indented depth (Markup.emptyTag name as)) ++ rest =
      ('\n' :: List.replicate (2 * depth) ' ') ++ (Markup.emptyTag name as ++ rest) := by
    simp [nextLine, indented]
  obtain ⟨limit, rfl⟩ : ∃ n, limit = n + 1 := ⟨limit - 1, by omega⟩
  rw [whole, List.length_append, List.length_append] at enough
  rw [whole, Markup.eventsFrom_emptyTag plain (notMem_indent depth), Draft.run, String.ofList_toList, opens]
  exact later limit (by simp at enough; omega)

/-- The first tag of an element on a line of its own. -/
theorem Yields.startTag {d d' final : Draft} {parents : List (List Char)} {rest : List Char} {depth : Nat}
    {name : String} {as : List (String × String)} (plain : Markup.PlainTag name as)
    (opens : d.opens name (as.map .ofPair) false = .ok d')
    (later : Yields d' (name.toList :: parents) rest final) :
    Yields d parents (nextLine (indented depth (Markup.startTag name as)) ++ rest) final := by
  intro limit enough
  have whole : nextLine (indented depth (Markup.startTag name as)) ++ rest =
      ('\n' :: List.replicate (2 * depth) ' ') ++ (Markup.startTag name as ++ rest) := by
    simp [nextLine, indented]
  obtain ⟨limit, rfl⟩ : ∃ n, limit = n + 1 := ⟨limit - 1, by omega⟩
  rw [whole, List.length_append, List.length_append] at enough
  rw [whole, Markup.eventsFrom_startTag plain (notMem_indent depth), Draft.run, String.ofList_toList, opens]
  exact later limit (by simp at enough; omega)

/-- The last tag of the innermost element on a line of its own. -/
theorem Yields.endTag {d final : Draft} {parents : List (List Char)} {rest : List Char} {depth : Nat}
    {name : String} (plain : Markup.PlainName name.toList)
    (later : Yields (d.closes name) parents rest final) :
    Yields d (name.toList :: parents) (nextLine (indented depth (Markup.endTag name)) ++ rest) final := by
  intro limit enough
  have whole : nextLine (indented depth (Markup.endTag name)) ++ rest =
      ('\n' :: List.replicate (2 * depth) ' ') ++ (Markup.endTag name ++ rest) := by
    simp [nextLine, indented]
  obtain ⟨limit, rfl⟩ : ∃ n, limit = n + 1 := ⟨limit - 1, by omega⟩
  rw [whole, List.length_append, List.length_append] at enough
  rw [whole, Markup.eventsFrom_endTag plain (notMem_indent depth), Draft.run, String.ofList_toList]
  exact later limit (by simp at enough; omega)

/-- Lines that each add an entry, one after the other. -/
theorem Yields.flatMap {σ α : Type} {view : σ → Draft} (step : σ → α → σ) {line : α → List Char}
    {parents : List (List Char)} {rest : List Char} {final : Draft}
    (each : ∀ s a rest, Yields (view (step s a)) parents rest final →
      Yields (view s) parents (line a ++ rest) final)
    (l : List α) (s : σ) (later : Yields (view (l.foldl step s)) parents rest final) :
    Yields (view s) parents (l.flatMap line ++ rest) final := by
  induction l generalizing s with
  | nil => exact later
  | cons a l ih =>
    rw [List.flatMap_cons, List.append_assoc]
    exact each s a _ (ih (step s a) later)

/-- The lines of an entry with a key and texts. The hypotheses say what each of its tags adds. -/
theorem Yields.listing (view : Option String → Ordered.Map String (Ordered.Set String) → Draft)
    {name key inner innerKey : String} {parents : List (List Char)} {rest : List Char} {final : Draft}
    (named : Markup.PlainName name.toList) (keyed : Markup.PlainName key.toList)
    (innerNamed : Markup.PlainName inner.toList) (innerKeyed : Markup.PlainName innerKey.toList)
    (alone : ∀ e k, (view none e).opens name [.ofPair (key, k)] true = .ok (view none (addKey e k)))
    (first : ∀ e k, (view none e).opens name [.ofPair (key, k)] false = .ok (view (some k) (addKey e k)))
    (each : ∀ e k t, (view (some k) e).opens inner [.ofPair (innerKey, t)] true =
      .ok (view (some k) (addTo e k t)))
    (last : ∀ e k, (view (some k) e).closes name = view none e)
    (e : Ordered.Map String (Ordered.Set String)) (entry : String × Ordered.Set String)
    (later : Yields (view none (addEntry e entry)) parents rest final) :
    Yields (view none e) parents
      ((ModuleDescription.listing name key inner innerKey entry).flatMap nextLine ++ rest) final := by
  obtain ⟨k, texts⟩ := entry
  have outerTag : Markup.PlainTag name [(key, k)] := ⟨named, by simpa using keyed, by simp⟩
  simp only [ModuleDescription.listing]
  split
  · rename_i none
    have empty : texts.toList = [] := by simpa [Ordered.Set.isEmpty] using none
    have same : addEntry e (k, texts) = addKey e k := by simp [addEntry, empty]
    rw [same] at later
    simp only [List.flatMap_cons, List.flatMap_nil, List.append_nil]
    exact Yields.emptyTag outerTag (alone e k) later
  · simp only [List.flatMap_append, List.flatMap_cons, List.flatMap_nil, List.append_nil, List.append_assoc,
      List.cons_append]
    refine Yields.startTag outerTag (first e k) ?_
    rw [List.flatMap_map]
    refine Yields.flatMap (fun m text => addTo m k text)
      (fun s t rest yields => ?_) texts.toList (addKey e k) ?_
    · exact Yields.emptyTag ⟨innerNamed, by simpa using innerKeyed, by simp⟩ (each s k t) yields
    · refine Yields.endTag named ?_
      rw [last]
      exact later

/-! ### Modules -/

theorem headAttributes_plain (m : ModuleDescription) : Markup.PlainTag "module" m.headAttributes := by
  have keys : ∀ key ∈ ["name", "version", "main"], Markup.PlainName key.toList := by decide
  refine ⟨by decide, fun a mem => keys a.1 ?_, ?_⟩
  · simp only [headAttributes, List.mem_append, Option.mem_toList, Option.map_eq_some_iff] at mem
    rcases mem with (mem | ⟨v, -, rfl⟩) | ⟨c, -, rfl⟩
    · obtain rfl : a = ("name", m.name) := by simpa using mem
      simp
    · simp
    · simp
  · obtain ⟨name, version, mainClass, _, _, _, _, _, _⟩ := m
    cases version <;> cases mainClass <;> simp [headAttributes]

/-- The module of which only the attributes of its own tag are known. -/
def head (m : ModuleDescription) : ModuleDescription :=
  { named m.name with version := m.version, mainClass := m.mainClass }

/-- Attributes are looked up by their keys. -/
theorem attribute?_map_ofPair (as : List (String × String)) (key : String) :
    attribute? (as.map .ofPair) key = (as.find? (·.1 == key)).map Prod.snd := by
  have same : (fun a : Markup.Attribute => a.name == key.toList) ∘ Markup.Attribute.ofPair =
      fun a : String × String => a.1 == key := by
    funext a
    rw [Bool.eq_iff_iff]
    simp [Markup.Attribute.ofPair, String.toList_inj]
  rw [attribute?, List.find?_map, same, Option.map_map]
  congr 1
  funext a
  simp [Markup.Attribute.ofPair]

theorem required_ofPair (tag key value : String) : required tag [.ofPair (key, value)] key = .ok value := by
  have found := attribute?_map_ofPair [(key, value)] key
  simp only [List.map_cons, List.map_nil] at found
  simp [required, found]

theorem begin_headAttributes (m : ModuleDescription) :
    begin (m.headAttributes.map .ofPair) = .ok m.head := by
  obtain ⟨name, version, mainClass, _, _, _, _, _, _⟩ := m
  simp only [begin, required, attribute?_map_ofPair]
  cases version <;> cases mainClass <;> simp [headAttributes, head]

theorem requiresOf_attributes (r : Requires) :
    requiresOf ([("name", r.name), ("mandated", flag r.mandated), ("public", flag r.transitive),
      ("synthetic", flag r.synthetic)].map .ofPair) = .ok r := by
  obtain ⟨name, mandated, transitive, synthetic⟩ := r
  simp only [requiresOf, required, attributeFlag, attribute?_map_ofPair]
  cases mandated <;> cases transitive <;> cases synthetic <;> simp [flag]

theorem requires_plain (r : Requires) : Markup.PlainTag "requires" [("name", r.name),
    ("mandated", flag r.mandated), ("public", flag r.transitive), ("synthetic", flag r.synthetic)] := by
  have keys : ∀ key ∈ ["name", "mandated", "public", "synthetic"], Markup.PlainName key.toList := by
    decide
  refine ⟨by decide, fun a mem => keys a.1 ?_, by simp⟩
  simp only [List.mem_cons, List.not_mem_nil, or_false] at mem
  rcases mem with rfl | rfl | rfl | rfl <;> simp

/-- Lines that each insert an element say a set. -/
theorem Yields.ofSet {α : Type} [Ord α] [Std.TransOrd α] [Std.LawfulEqOrd α]
    (view : Ordered.Set α → Draft) {line : α → List Char} {parents : List (List Char)} {rest : List Char}
    {final : Draft}
    (each : ∀ s a rest, Yields (view (s.insert a)) parents rest final →
      Yields (view s) parents (nextLine (line a) ++ rest) final)
    (s : Ordered.Set α) (later : Yields (view s) parents rest final) :
    Yields (view ∅) parents ((s.toList.map line).flatMap nextLine ++ rest) final := by
  rw [List.flatMap_map]
  refine Yields.flatMap _ each s.toList ∅ ?_
  have whole : s.toList.foldl Ordered.Set.insert ∅ = s := Ordered.Set.ofList_toList s
  rw [whole]
  exact later

/-- Lines that each add an entry say a map. -/
theorem Yields.ofMap (view : Ordered.Map String (Ordered.Set String) → Draft)
    {lines : String × Ordered.Set String → List (List Char)} {parents : List (List Char)} {rest : List Char}
    {final : Draft}
    (each : ∀ e entry rest, Yields (view (addEntry e entry)) parents rest final →
      Yields (view e) parents ((lines entry).flatMap nextLine ++ rest) final)
    (e : Ordered.Map String (Ordered.Set String)) (later : Yields (view e) parents rest final) :
    Yields (view ∅) parents ((e.toList.flatMap lines).flatMap nextLine ++ rest) final := by
  rw [List.flatMap_assoc]
  refine Yields.flatMap _ each e.toList ∅ ?_
  rw [foldl_addEntry]
  exact later

/-- Lines that each say one text of a set under the same key. -/
theorem Yields.single (view : Ordered.Set String → Draft) {name key : String}
    {parents : List (List Char)} {rest : List Char} {final : Draft} (plain : Markup.PlainName name.toList)
    (keyed : Markup.PlainName key.toList)
    (adds : ∀ s p, (view s).opens name [.ofPair (key, p)] true = .ok (view (s.insert p)))
    (s : Ordered.Set String) (later : Yields (view s) parents rest final) :
    Yields (view ∅) parents
      ((s.toList.map fun p => indented 1 (Markup.emptyTag name [(key, p)])).flatMap nextLine ++ rest) final := by
  refine Yields.ofSet view (fun s p rest yields => ?_) s later
  have tag : Markup.PlainTag name [(key, p)] := ⟨plain, by simpa using keyed, by simp⟩
  exact Yields.emptyTag tag (adds s p) yields

section

variable {parents : List (List Char)} {rest : List Char} {final : Draft} (d : ModuleDescription)

/-- The lines of what a module exports, behind a module `d` that exports nothing yet. -/
theorem yields_exports (e : Ordered.Map String (Ordered.Set String))
    (later : Yields (Draft.of { d with exports := e }) parents rest final) :
    Yields (Draft.of { d with exports := ∅ }) parents
      ((e.toList.flatMap (listing "exports" "source" "target" "module")).flatMap nextLine ++ rest) final := by
  refine Yields.ofMap (fun e => Draft.of { d with exports := e }) (fun e entry rest yields => ?_) e later
  refine Yields.listing (fun key e => ⟨some { d with exports := e }, key, none⟩)
    (by decide) (by decide) (by decide) (by decide) ?_ ?_ ?_ ?_ e entry yields
  · intro e k
    simp [Draft.opens, Draft.part, required_ofPair]
  · intro e k
    simp [Draft.opens, Draft.part, required_ofPair]
  · intro e k t
    simp [Draft.opens, Draft.part, required_ofPair]
  · intro e k
    simp [Draft.closes]

theorem yields_requires (s : Ordered.Set Requires)
    (later : Yields (Draft.of { d with requires := s }) parents rest final) :
    Yields (Draft.of { d with requires := ∅ }) parents
      ((s.toList.map fun r => indented 1 (Markup.emptyTag "requires" [("name", r.name),
        ("mandated", flag r.mandated), ("public", flag r.transitive),
        ("synthetic", flag r.synthetic)])).flatMap nextLine ++ rest) final := by
  refine Yields.ofSet (fun s => Draft.of { d with requires := s })
    (fun s r rest yields => Yields.emptyTag (requires_plain r) ?_ yields) s later
  have read := requiresOf_attributes r
  simp only [List.map_cons, List.map_nil] at read
  simp [Draft.opens, Draft.part, Draft.of, read]

theorem yields_provides (e : Ordered.Map String (Ordered.Set String))
    (later : Yields (Draft.of { d with provides := e }) parents rest final) :
    Yields (Draft.of { d with provides := ∅ }) parents
      ((e.toList.flatMap (listing "provides" "service" "provider" "class")).flatMap nextLine ++ rest) final := by
  refine Yields.ofMap (fun e => Draft.of { d with provides := e }) (fun e entry rest yields => ?_) e later
  refine Yields.listing (fun key e => ⟨some { d with provides := e }, none, key⟩)
    (by decide) (by decide) (by decide) (by decide) ?_ ?_ ?_ ?_ e entry yields
  · intro e k
    simp [Draft.opens, Draft.part, required_ofPair]
  · intro e k
    simp [Draft.opens, Draft.part, required_ofPair]
  · intro e k t
    simp [Draft.opens, Draft.part, required_ofPair]
  · intro e k
    simp [Draft.closes]

end

/-- The lines inside the module say all that its own tag leaves open. -/
theorem yields_bodyLines (m : ModuleDescription) {parents : List (List Char)} {rest : List Char}
    {final : Draft} (later : Yields (Draft.of m) parents rest final) :
    Yields (Draft.of m.head) parents (m.bodyLines.flatMap nextLine ++ rest) final := by
  simp only [bodyLines, List.flatMap_append, List.append_assoc]
  refine Yields.single (fun s => Draft.of { m.head with packages := s })
    (by decide) (by decide) (fun s p => ?_) m.packages ?_
  · simp [Draft.opens, Draft.part, Draft.of, required_ofPair]
  refine Yields.single (fun s => Draft.of { m.head with packages := m.packages, conceals := s })
    (by decide) (by decide) (fun s p => ?_) m.conceals ?_
  · simp [Draft.opens, Draft.part, Draft.of, required_ofPair]
  refine yields_exports { m.head with packages := m.packages, conceals := m.conceals } m.exports ?_
  refine yields_requires { m.head with
    packages := m.packages, conceals := m.conceals, exports := m.exports } m.requires ?_
  refine yields_provides { m.head with
    packages := m.packages, conceals := m.conceals, exports := m.exports, requires := m.requires } m.provides ?_
  refine Yields.single (fun s => Draft.of { m with uses := s })
    (by decide) (by decide) (fun s u => ?_) m.uses later
  simp [Draft.opens, Draft.part, Draft.of, required_ofPair]

/-- Every module is read back from its block. -/
theorem ofMarkup_toMarkup (m : ModuleDescription) : ofMarkup m.toMarkup = .ok m := by
  have opens (empty : Bool) : Draft.opens ⟨none, none, none⟩ "module" (m.headAttributes.map .ofPair) empty =
      .ok (Draft.of m.head) := by
    simp [Draft.opens, begin_headAttributes, Draft.of]
  have plain := headAttributes_plain m
  have run : Draft.run ⟨none, none, none⟩ (Markup.events m.toMarkup.toList) = .ok (Draft.of m) := by
    rw [toMarkup, String.toList_ofList, Markup.events]
    split
    · rename_i bare
      have same : m.head = m := by
        obtain ⟨name, version, mainClass, packages, conceals, exports, requires, provides, uses⟩ := m
        simp only [isBare, Bool.and_eq_true] at bare
        obtain ⟨⟨⟨⟨⟨h1, h2⟩, h3⟩, h4⟩, h5⟩, h6⟩ := bare
        rw [Ordered.Set.eq_empty h1, Ordered.Set.eq_empty h2, Ordered.Map.eq_empty h3,
          Ordered.Set.eq_empty h4, Ordered.Map.eq_empty h5, Ordered.Set.eq_empty h6]
        rfl
      have event := @Markup.eventsFrom_emptyTag _ _ plain [] (by simp)
        (Markup.emptyTag "module" m.headAttributes).length [] []
      simp only [List.nil_append, List.append_nil] at event
      rw [event, Draft.run, String.ofList_toList, opens, same]
      exact yields_nil (Draft.of m) [] _ (by simp [Markup.emptyTag_eq])
    · have whole : join ['\n'] ([Markup.startTag "module" m.headAttributes] ++ m.bodyLines ++
          [Markup.endTag "module"]) = Markup.startTag "module" m.headAttributes ++
            (m.bodyLines.flatMap nextLine ++ (nextLine (indented 0 (Markup.endTag "module")) ++ [])) := by
        rw [List.append_assoc, List.singleton_append, join_eq_append_flatMap]
        rw [show (fun line => '\n' :: line) = nextLine from rfl, List.flatMap_append]
        simp [nextLine, indented]
      have rest : Yields (Draft.of m.head) ["module".toList]
          (m.bodyLines.flatMap nextLine ++ (nextLine (indented 0 (Markup.endTag "module")) ++ []))
          (Draft.of m) :=
        yields_bodyLines m (Yields.endTag (by decide) (yields_nil _ _))
      have event := @Markup.eventsFrom_startTag _ _ plain [] (by simp)
        (join ['\n'] ([Markup.startTag "module" m.headAttributes] ++ m.bodyLines ++
          [Markup.endTag "module"])).length []
        (m.bodyLines.flatMap nextLine ++ (nextLine (indented 0 (Markup.endTag "module")) ++ []))
      rw [List.nil_append, ← whole] at event
      rw [event, Draft.run, String.ofList_toList, opens]
      refine rest _ ?_
      simp only [whole, List.length_append]
      have filled : 1 ≤ (Markup.startTag "module" m.headAttributes).length := by
        simp [Markup.startTag_eq]
      omega
  simp [ofMarkup, run, Draft.of]

end ModuleDescription

end ApiSurface
