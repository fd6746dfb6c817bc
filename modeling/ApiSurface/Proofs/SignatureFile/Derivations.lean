import ApiSurface.SignatureFile.Reader

/-!
How it comes about what is read from the blocks of a file: a derivation goes from line to line and from block to block,
with one constructor for each kind of line or block, which holds all that was asked of it. Main statements: the derivations give what the
functions of the reader give, and nothing else (`gathers_iff`, `readsClass_iff`, `findsBlock_iff`,
`Reader.readsNext_iff`, `Reader.readsUpTo_iff`). So a proof about everything that is read is an induction on a
derivation.
-/

namespace ApiSurface

open ApiSurface.Text ApiSurface.Line ApiSurface.SignatureFile

namespace SignatureFile

/-! ### The lines of a class -/

/-- From these lines in a block of this class that is gathered, and those are left. -/
inductive Gathers (rules : List LegacyRule) (className : String) :
    List SourceLine → Except ReadError (List BlockLine) → List SourceLine → Prop
  | ends : Gathers rules className [] (.ok []) []
  | undecodable {rest : List SourceLine} :
    Gathers rules className (.undecodable :: rest) (.error .undecodable) rest
  /-- The next block begins. -/
  | next {n : Nat} {cs : List Char} {rest : List SourceLine}
    (starts : LineKind.of cs = .classHeader ∨ LineKind.of cs = .moduleBlock) :
    Gathers rules className (.text n cs :: rest) (.ok []) (.text n cs :: rest)
  /-- A line that an old spelling does not have. -/
  | misspelled {n : Nat} {cs : List Char} {rest : List SourceLine} {m : Malformed}
    (inside : ¬(LineKind.of cs = .classHeader ∨ LineKind.of cs = .moduleBlock)) (filled : ¬allBlank cs)
    (wrong : LegacyRule.decodeAll className rules cs = .error m) :
    Gathers rules className (.text n cs :: rest) (.error (.malformed (m.atLine n))) rest
  | blank {n : Nat} {cs : List Char} {rest left : List SourceLine} {result : Except ReadError (List BlockLine)}
    (inside : ¬(LineKind.of cs = .classHeader ∨ LineKind.of cs = .moduleBlock)) (blank : allBlank cs)
    (more : Gathers rules className rest result left) : Gathers rules className (.text n cs :: rest) result left
  /-- A line that today's spelling does not have. -/
  | dropped {n : Nat} {cs : List Char} {rest left : List SourceLine} {result : Except ReadError (List BlockLine)}
    (inside : ¬(LineKind.of cs = .classHeader ∨ LineKind.of cs = .moduleBlock)) (filled : ¬allBlank cs)
    (decoded : LegacyRule.decodeAll className rules cs = .ok none) (more : Gathers rules className rest result left) :
    Gathers rules className (.text n cs :: rest) result left
  | kept {n : Nat} {cs text : List Char} {rest left : List SourceLine} {block : List BlockLine}
    (inside : ¬(LineKind.of cs = .classHeader ∨ LineKind.of cs = .moduleBlock)) (filled : ¬allBlank cs)
    (decoded : LegacyRule.decodeAll className rules cs = .ok (some text))
    (more : Gathers rules className rest (.ok block) left) :
    Gathers rules className (.text n cs :: rest) (.ok (⟨n, LineKind.of cs, text⟩ :: block)) left
  /-- A line in front of one that cannot be read. -/
  | lost {n : Nat} {cs text : List Char} {rest left : List SourceLine} {e : ReadError}
    (inside : ¬(LineKind.of cs = .classHeader ∨ LineKind.of cs = .moduleBlock)) (filled : ¬allBlank cs)
    (decoded : LegacyRule.decodeAll className rules cs = .ok (some text))
    (more : Gathers rules className rest (.error e) left) :
    Gathers rules className (.text n cs :: rest) (.error e) left

variable {rules : List LegacyRule} {className : String} {lines left : List SourceLine}

theorem gathers_gatherClass (rules : List LegacyRule) (className : String) (lines : List SourceLine) :
    Gathers rules className lines (gatherClass rules className lines).1 (gatherClass rules className lines).2 := by
  induction lines with
  | nil => exact .ends
  | cons line rest ih =>
    cases line with
    | undecodable => exact .undecodable
    | text n cs =>
      rw [gatherClass]
      split
      · exact .next ‹_›
      · rename_i inside
        split
        · exact .blank inside ‹_› ih
        · rename_i filled
          split
          · exact .misspelled inside filled ‹_›
          · exact .dropped inside filled ‹_› ih
          · rename_i text decoded
            split <;> rename_i found <;> rw [found] at ih
            · exact .kept inside filled decoded ih
            · exact .lost inside filled decoded ih

/-- What is gathered is what there is a derivation for. -/
theorem gathers_iff {result : Except ReadError (List BlockLine)} :
    Gathers rules className lines result left ↔ gatherClass rules className lines = (result, left) := by
  constructor
  · intro h
    induction h with
    | ends | undecodable => rfl
    | next starts => rw [gatherClass, if_pos starts]
    | misspelled inside filled wrong => simp [gatherClass, inside, filled, wrong]
    | blank inside blank _ same => simpa [gatherClass, inside, blank] using same
    | dropped inside filled decoded _ same => simpa [gatherClass, inside, filled, decoded] using same
    | kept inside filled decoded _ same | lost inside filled decoded _ same =>
      simp [gatherClass, inside, filled, decoded, same]
  · intro same
    have h := gathers_gatherClass rules className lines
    rwa [same] at h

/-! ### Classes -/

/-- From a class block with this first line that is read, and those lines are left. -/
inductive ReadsClass (f : Format) (active : Feature → Bool) (n : Nat) (cs : List Char) :
    List SourceLine → Except ReadError ClassDescription → List SourceLine → Prop
  | badHeader {rest : List SourceLine} {m : Malformed} (wrong : parseClassHeader cs = .error m) :
    ReadsClass f active n cs rest (.error (.malformed (m.atLine n))) rest
  | badBlock {rest left : List SourceLine} {header : ClassHeader} {e : ReadError}
    (first : parseClassHeader cs = .ok header)
    (gathered : gatherClass f.rules header.name rest = (.error e, left)) :
    ReadsClass f active n cs rest (.error e) left
  | badLine {rest left : List SourceLine} {header : ClassHeader} {block : List BlockLine} {m : Malformed}
    (first : parseClassHeader cs = .ok header)
    (gathered : gatherClass f.rules header.name rest = (.ok block, left))
    (wrong : ClassDraft.addAll active ⟨{ ClassDescription.named header.name header.modifiers with
      typeParameters := header.typeParameters }, none⟩ block = .error m) :
    ReadsClass f active n cs rest (.error (.malformed m)) left
  | read {rest left : List SourceLine} {header : ClassHeader} {block : List BlockLine} {d : ClassDraft}
    (first : parseClassHeader cs = .ok header)
    (gathered : gatherClass f.rules header.name rest = (.ok block, left))
    (added : ClassDraft.addAll active ⟨{ ClassDescription.named header.name header.modifiers with
      typeParameters := header.typeParameters }, none⟩ block = .ok d) :
    ReadsClass f active n cs rest (.ok d.description) left

variable {f : Format} {active : Feature → Bool} {n : Nat} {cs : List Char}

theorem readsClass_readClass (f : Format) (active : Feature → Bool) (n : Nat) (cs : List Char)
    (lines : List SourceLine) :
    ReadsClass f active n cs lines (readClass f active n cs lines).1 (readClass f active n cs lines).2 := by
  rw [readClass]
  split
  · exact .badHeader ‹_›
  · rename_i header first
    split
    · exact .badBlock first ‹_›
    · rename_i block left gathered
      dsimp only
      split
      · exact .badLine first gathered ‹_›
      · exact .read first gathered ‹_›

theorem readsClass_iff {result : Except ReadError ClassDescription} :
    ReadsClass f active n cs lines result left ↔ readClass f active n cs lines = (result, left) := by
  constructor
  · intro h
    cases h with
    | badHeader wrong => simp [readClass, wrong]
    | badBlock first gathered => simp [readClass, first, gathered]
    | badLine first gathered wrong => simp [readClass, first, gathered, wrong]
    | read first gathered added => simp [readClass, first, gathered, added]
  · intro same
    have h := readsClass_readClass f active n cs lines
    rwa [same] at h

/-! ### The next block -/

/-- Of these lines, at most `limit`, the next block that is not left out is that, and those are left. -/
inductive FindsBlock (f : Format) (active : Feature → Bool) :
    Nat → List SourceLine → Except ReadError (Option ClassDescription) → List SourceLine → Prop
  | stops {lines : List SourceLine} : FindsBlock f active 0 lines (.ok none) lines
  | ends {limit : Nat} : FindsBlock f active (limit + 1) [] (.ok none) []
  | undecodable {limit : Nat} {rest : List SourceLine} :
    FindsBlock f active (limit + 1) (.undecodable :: rest) (.error .undecodable) rest
  | blank {limit n : Nat} {cs : List Char} {rest left : List SourceLine}
    {result : Except ReadError (Option ClassDescription)} (blank : allBlank cs)
    (more : FindsBlock f active limit rest result left) :
    FindsBlock f active (limit + 1) (.text n cs :: rest) result left
  /-- A line in the place of a block. -/
  | noBlock {limit n : Nat} {cs : List Char} {rest : List SourceLine} (filled : ¬allBlank cs)
    (other : ¬(LineKind.of cs = .classHeader ∨ LineKind.of cs = .moduleBlock)) :
    FindsBlock f active (limit + 1) (.text n cs :: rest)
      (.error (.malformed ⟨n, .noClassHeader, String.ofList cs⟩)) rest
  | badModule {limit n : Nat} {cs : List Char} {rest left : List SourceLine} {e : ReadError}
    (filled : ¬allBlank cs) (kind : LineKind.of cs = .moduleBlock) (wrong : readModule n cs rest = (.error e, left)) :
    FindsBlock f active (limit + 1) (.text n cs :: rest) (.error e) left
  | module {limit n : Nat} {cs : List Char} {rest left : List SourceLine} {m : ModuleDescription}
    (filled : ¬allBlank cs) (kind : LineKind.of cs = .moduleBlock) (read : readModule n cs rest = (.ok m, left))
    (on : active .moduleInfo = true) :
    FindsBlock f active (limit + 1) (.text n cs :: rest) (.ok (some (.ofModule m))) left
  /-- A module where modules are left out. -/
  | hidden {limit n : Nat} {cs : List Char} {rest behind left : List SourceLine} {m : ModuleDescription}
    {result : Except ReadError (Option ClassDescription)} (filled : ¬allBlank cs)
    (kind : LineKind.of cs = .moduleBlock) (read : readModule n cs rest = (.ok m, behind))
    (off : active .moduleInfo = false) (more : FindsBlock f active limit behind result left) :
    FindsBlock f active (limit + 1) (.text n cs :: rest) result left
  | badClass {limit n : Nat} {cs : List Char} {rest left : List SourceLine} {e : ReadError}
    (filled : ¬allBlank cs) (kind : LineKind.of cs = .classHeader)
    (wrong : readClass f active n cs rest = (.error e, left)) :
    FindsBlock f active (limit + 1) (.text n cs :: rest) (.error e) left
  | class' {limit n : Nat} {cs : List Char} {rest left : List SourceLine} {c : ClassDescription}
    (filled : ¬allBlank cs) (kind : LineKind.of cs = .classHeader)
    (read : readClass f active n cs rest = (.ok c, left)) :
    FindsBlock f active (limit + 1) (.text n cs :: rest) (.ok (some c)) left

theorem findsBlock_readBlock (f : Format) (active : Feature → Bool) (limit : Nat) (lines : List SourceLine) :
    FindsBlock f active limit lines (readBlock f active limit lines).1 (readBlock f active limit lines).2 := by
  induction limit generalizing lines with
  | zero => exact .stops
  | succ limit ih =>
    cases lines with
    | nil => exact .ends
    | cons line rest =>
      cases line with
      | undecodable => exact .undecodable
      | text n cs =>
        rw [readBlock]
        split
        · exact .blank ‹_› (ih rest)
        · rename_i filled
          split
          · rename_i kind
            split
            · exact .badModule filled kind ‹_›
            · rename_i m behind read
              split
              · exact .module filled kind read ‹_›
              · exact .hidden filled kind read (by simpa using ‹¬active .moduleInfo = true›) (ih behind)
          · rename_i kind
            split
            · exact .badClass filled kind ‹_›
            · exact .class' filled kind ‹_›
          · rename_i noModule noClass
            exact .noBlock filled fun starts => starts.elim noClass noModule

theorem findsBlock_iff {limit : Nat} {result : Except ReadError (Option ClassDescription)} :
    FindsBlock f active limit lines result left ↔ readBlock f active limit lines = (result, left) := by
  constructor
  · intro h
    induction h with
    | stops | ends | undecodable => rfl
    | blank blank _ same => rw [readBlock, if_pos blank, same]
    | noBlock filled other =>
      rw [readBlock, if_neg filled]
      split
      · exact absurd (.inr ‹_›) other
      · exact absurd (.inl ‹_›) other
      · rfl
    | badModule filled kind wrong => simp [readBlock, filled, kind, wrong]
    | module filled kind read on => simp [readBlock, filled, kind, read, on]
    | hidden filled kind read off _ same => simp [readBlock, filled, kind, read, off, same]
    | badClass filled kind wrong => simp [readBlock, filled, kind, wrong]
    | class' filled kind read => simp [readBlock, filled, kind, read]
  · intro same
    have h := findsBlock_readBlock f active limit lines
    rwa [same] at h

end SignatureFile

/-! ### Readers -/

namespace Reader

/-- The next class or module of this reader is that, and the reader is then there. -/
inductive ReadsNext (r : Reader) : Except ReadError (Option ClassDescription) → Reader → Prop
  | badHeader {r' : Reader} {e : ReadError} (wrong : r.readHeader = (.error e, r')) : ReadsNext r (.error e) r'
  | closed {r' : Reader} (opened : r.readHeader = (.ok (), r')) (closed : r'.phase = .closed) :
    ReadsNext r (.ok none) r'
  | badBlock {r' : Reader} {e : ReadError} {rest : List SourceLine} (opened : r.readHeader = (.ok (), r'))
    (reading : r'.phase ≠ .closed)
    (wrong : readBlock r'.format r'.hasFeature (r'.lines.length + 1) r'.lines = (.error e, rest)) :
    ReadsNext r (.error e) { r' with lines := rest }
  | ends {r' : Reader} {rest : List SourceLine} (opened : r.readHeader = (.ok (), r')) (reading : r'.phase ≠ .closed)
    (finished : readBlock r'.format r'.hasFeature (r'.lines.length + 1) r'.lines = (.ok none, rest)) :
    ReadsNext r (.ok none) { r' with phase := .closed, lines := rest }
  | read {r' : Reader} {c : ClassDescription} {rest : List SourceLine} (opened : r.readHeader = (.ok (), r'))
    (reading : r'.phase ≠ .closed)
    (block : readBlock r'.format r'.hasFeature (r'.lines.length + 1) r'.lines = (.ok (some c), rest)) :
    ReadsNext r (.ok (some c)) { r' with lines := rest }

theorem readsNext_readNext (r : Reader) : ReadsNext r r.readNext.1 r.readNext.2 := by
  rw [readNext]
  split
  · exact .badHeader ‹_›
  · rename_i r' opened
    split
    · exact .closed opened ‹_›
    · rename_i reading
      cases block : readBlock r'.format r'.hasFeature (r'.lines.length + 1) r'.lines with
      | mk result rest =>
        rcases result with e | found
        · exact .badBlock opened reading block
        · cases found with
          | none => exact .ends opened reading block
          | some c => exact .read opened reading block

theorem readsNext_iff {r r' : Reader} {result : Except ReadError (Option ClassDescription)} :
    ReadsNext r result r' ↔ r.readNext = (result, r') := by
  constructor
  · intro h
    cases h with
    | badHeader wrong => simp [readNext, wrong]
    | closed opened closed => simp [readNext, opened, closed]
    | badBlock opened reading block | ends opened reading block | read opened reading block =>
      simp [readNext, opened, reading, block]
  · intro same
    have h := readsNext_readNext r
    rwa [same] at h

/-- At most `limit` classes and modules of this reader are those, and the reader is then there. -/
inductive ReadsUpTo : Nat → Reader → Except ReadError (List ClassDescription) → Reader → Prop
  | stops {r : Reader} : ReadsUpTo 0 r (.ok []) r
  | fails {limit : Nat} {r r' : Reader} {e : ReadError} (wrong : r.readNext = (.error e, r')) :
    ReadsUpTo (limit + 1) r (.error e) r'
  | ends {limit : Nat} {r r' : Reader} (finished : r.readNext = (.ok none, r')) : ReadsUpTo (limit + 1) r (.ok []) r'
  | reads {limit : Nat} {r r' last : Reader} {c : ClassDescription} {cs : List ClassDescription}
    (next : r.readNext = (.ok (some c), r')) (more : ReadsUpTo limit r' (.ok cs) last) :
    ReadsUpTo (limit + 1) r (.ok (c :: cs)) last
  /-- A class in front of one that cannot be read. -/
  | loses {limit : Nat} {r r' last : Reader} {c : ClassDescription} {e : ReadError}
    (next : r.readNext = (.ok (some c), r')) (more : ReadsUpTo limit r' (.error e) last) :
    ReadsUpTo (limit + 1) r (.error e) last

theorem readsUpTo_readUpTo (limit : Nat) (r : Reader) :
    ReadsUpTo limit r (r.readUpTo limit).1 (r.readUpTo limit).2 := by
  induction limit generalizing r with
  | zero => exact .stops
  | succ limit ih =>
    rw [readUpTo]
    split
    · exact .fails ‹_›
    · exact .ends ‹_›
    · rename_i c r' next
      have later := ih r'
      split <;> rename_i found <;> rw [found] at later
      · exact .loses next later
      · exact .reads next later

theorem readsUpTo_iff {limit : Nat} {r r' : Reader} {result : Except ReadError (List ClassDescription)} :
    ReadsUpTo limit r result r' ↔ r.readUpTo limit = (result, r') := by
  constructor
  · intro h
    induction h with
    | stops => rfl
    | fails wrong => simp [readUpTo, wrong]
    | ends finished => simp [readUpTo, finished]
    | reads next _ later | loses next _ later => simp [readUpTo, next, later]
  · intro same
    have h := readsUpTo_readUpTo limit r
    rwa [same] at h

end Reader
end ApiSurface
