import ApiSurface.Proofs.SignatureFile.Header
import ApiSurface.Proofs.SignatureFile.Left

/-!
Blocks of a file that do not depend on each other. What is read depends on the texts of the lines that were
taken for it and on nothing else: not on their numbers, and on what follows only in so far as a class goes on up
to the next block (`FindsBlock.takes`). So blocks are read behind others as if these were not there
(`readUpTo_behind`). Main statement: what a header and some blocks give and what the same header and other
blocks give is what the header and both give, one after the other (`readAll_append`).
-/

namespace ApiSurface

open ApiSurface.Text

namespace SignatureFile

/-! ### What a block takes -/

/-- A module is read from the lines up to its end tag, whatever follows them. -/
theorem gatherModule_takes {first n : Nat} {text whole : List Char} {ls : List (List Char)}
    {rest : List SourceLine} (read : gatherModule first text (numbered n ls) = (.ok whole, rest)) :
    ∃ taken left, ls = taken ++ left ∧ rest = numbered (n + taken.length) left ∧
      ∀ first m tail, gatherModule first text (numbered m taken ++ tail) = (.ok whole, tail) := by
  induction ls generalizing n text with
  | nil => cases read
  | cons line ls ih =>
    rw [numbered_cons, gatherModule] at read
    split at read
    · rename_i ends
      cases read
      exact ⟨[line], ls, rfl, rfl, fun first m tail => by simp [gatherModule, ends]⟩
    · rename_i inside
      obtain ⟨taken, left, rfl, rfl, again⟩ := ih read
      refine ⟨line :: taken, left, rfl, ?_, fun first m tail => ?_⟩
      · rw [List.length_cons, Nat.add_assoc, Nat.add_comm 1]
      · simp [gatherModule, inside, again]

theorem readModule_takes {first n : Nat} {cs : List Char} {ls : List (List Char)} {rest : List SourceLine}
    {m : ModuleDescription} (read : readModule first cs (numbered n ls) = (.ok m, rest)) :
    ∃ taken left, ls = taken ++ left ∧ rest = numbered (n + taken.length) left ∧
      ∀ first k tail, readModule first cs (numbered k taken ++ tail) = (.ok m, tail) := by
  unfold readModule at read ⊢
  by_cases alone : isWholeModule cs
  · simp only [alone, if_true] at read ⊢
    cases described : ModuleDescription.ofMarkup (String.ofList cs) with
    | error fault => simp [described] at read
    | ok found =>
      simp only [described, Prod.mk.injEq, Except.ok.injEq] at read
      obtain ⟨rfl, rfl⟩ := read
      exact ⟨[], ls, rfl, rfl, fun first k tail => rfl⟩
  · simp only [alone, Bool.false_eq_true, if_false] at read ⊢
    cases gathered : gatherModule first cs (numbered n ls) with
    | mk text behind =>
      rw [gathered] at read
      cases text with
      | error e => cases read
      | ok text =>
        obtain ⟨taken, left, rfl, rfl, again⟩ := gatherModule_takes gathered
        cases described : ModuleDescription.ofMarkup (String.ofList text) with
        | error fault => simp [described] at read
        | ok found =>
          simp only [described, Prod.mk.injEq, Except.ok.injEq] at read
          obtain ⟨rfl, rfl⟩ := read
          exact ⟨taken, left, rfl, rfl, fun first k tail => by simp [again, described]⟩

/-- Lines of a class block that say the same, whatever their numbers are. -/
def SayTheSame (a b : List BlockLine) : Prop :=
  a.map (fun l => (l.kind, l.text)) = b.map fun l => (l.kind, l.text)

theorem add_of_sayTheSame {active : Feature → Bool} {d e : ClassDraft} {kind : LineKind} {text : List Char}
    {n : Nat} (read : d.add active ⟨n, kind, text⟩ = .ok e) (m : Nat) :
    d.add active ⟨m, kind, text⟩ = .ok e := by
  unfold ClassDraft.add at read ⊢
  cases kind with
  | annotated | member =>
    dsimp only at read ⊢
    split at read
    · exact read
    · cases read
  | hiddenFields | hiddenClasses => exact read
  | classHeader | moduleBlock | unknown => cases read

theorem addAll_of_sayTheSame {active : Feature → Bool} {a b : List BlockLine} {d e : ClassDraft}
    (same : SayTheSame a b) (read : d.addAll active a = .ok e) : d.addAll active b = .ok e := by
  induction a generalizing b d with
  | nil =>
    obtain rfl : b = [] := by simpa [SayTheSame] using same.symm
    exact read
  | cons line a ih =>
    obtain ⟨⟨m, kind, text⟩, back, rfl, first, later⟩ := List.map_eq_cons_iff.1 same.symm
    obtain ⟨rfl, rfl⟩ : kind = line.kind ∧ text = line.text := Prod.mk.inj first
    rw [ClassDraft.addAll] at read ⊢
    split at read
    · cases read
    · rename_i d' found
      rw [add_of_sayTheSame found m]
      exact ih later.symm read

/-- Lines that begin a block do so whatever their numbers are. -/
theorem atBlock_numbered {n : Nat} {ls : List (List Char)} (h : AtBlock (numbered n ls)) (m : Nat) :
    AtBlock (numbered m ls) := by
  cases ls with
  | nil => trivial
  | cons line ls => exact h

/-- The lines of a class are gathered up to the next block, whatever this one is. -/
theorem Gathers.takes {rules : List LegacyRule} {className : String} {n : Nat} {ls : List (List Char)}
    {block : List BlockLine} {rest : List SourceLine}
    (gathered : Gathers rules className (numbered n ls) (.ok block) rest) :
    ∃ taken left, ls = taken ++ left ∧ rest = numbered (n + taken.length) left ∧ AtBlock rest ∧
      ∀ m tail, AtBlock tail → ∃ block', SayTheSame block block' ∧
        Gathers rules className (numbered m taken ++ tail) (.ok block') tail := by
  have none (m : Nat) (tail : List SourceLine) (next : AtBlock tail) : ∃ block', SayTheSame [] block' ∧
      Gathers rules className (numbered m [] ++ tail) (.ok block') tail :=
    ⟨[], rfl, gathers_iff.2 (gatherClass_atBlock next _ _)⟩
  induction ls generalizing n block with
  | nil =>
    cases gathered
    exact ⟨[], [], rfl, rfl, trivial, none⟩
  | cons line ls ih =>
    have count (taken : List (List Char)) : n + 1 + taken.length = n + (line :: taken).length := by
      rw [List.length_cons, Nat.add_assoc, Nat.add_comm 1]
    rw [numbered_cons] at gathered
    cases gathered with
    | next begins => exact ⟨[], line :: ls, rfl, rfl, begins, none⟩
    | blank inside blank more =>
      obtain ⟨taken, left, rfl, rfl, next, again⟩ := ih more
      refine ⟨line :: taken, left, rfl, by rw [count], next, fun m tail after => ?_⟩
      obtain ⟨block', same, found⟩ := again (m + 1) tail after
      exact ⟨block', same, .blank inside blank found⟩
    | dropped inside filled gone more =>
      obtain ⟨taken, left, rfl, rfl, next, again⟩ := ih more
      refine ⟨line :: taken, left, rfl, by rw [count], next, fun m tail after => ?_⟩
      obtain ⟨block', same, found⟩ := again (m + 1) tail after
      exact ⟨block', same, .dropped inside filled gone found⟩
    | kept inside filled decoded more =>
      obtain ⟨taken, left, rfl, rfl, next, again⟩ := ih more
      refine ⟨line :: taken, left, rfl, by rw [count], next, fun m tail after => ?_⟩
      obtain ⟨block', same, found⟩ := again (m + 1) tail after
      refine ⟨_ :: block', ?_, .kept inside filled decoded found⟩
      rw [SayTheSame, List.map_cons, List.map_cons, same]

/-- A class is read from the lines up to the next block, whatever this one is. -/
theorem readClass_takes {f : Format} {active : Feature → Bool} {first n : Nat} {cs : List Char}
    {ls : List (List Char)} {c : ClassDescription} {rest : List SourceLine}
    (read : readClass f active first cs (numbered n ls) = (.ok c, rest)) :
    ∃ taken left, ls = taken ++ left ∧ rest = numbered (n + taken.length) left ∧ AtBlock rest ∧
      ∀ first m tail, AtBlock tail → readClass f active first cs (numbered m taken ++ tail) = (.ok c, tail) := by
  cases readsClass_iff.2 read with
  | read header gathered added =>
    obtain ⟨taken, left, rfl, rfl, next, again⟩ := (gathers_iff.2 gathered).takes
    refine ⟨taken, left, rfl, rfl, next, fun first m tail after => ?_⟩
    obtain ⟨block', same, found⟩ := again m tail after
    exact readsClass_iff.1 (.read header (gathers_iff.1 found) (addAll_of_sayTheSame same added))

/-! ### The next block -/

variable {f : Format} {active : Feature → Bool}

/-- More lines than there are make no difference. -/
theorem readBlock_of_enough {a b : Nat} {lines : List SourceLine} (enough : lines.length < a)
    (enough' : lines.length < b) : readBlock f active a lines = readBlock f active b lines := by
  induction a generalizing b lines with
  | zero => omega
  | succ a ih =>
    obtain ⟨b, rfl⟩ : ∃ m, b = m + 1 := ⟨b - 1, by omega⟩
    cases lines with
    | nil => rfl
    | cons line lines =>
      rw [List.length_cons] at enough enough'
      cases line with
      | undecodable => rfl
      | text n cs =>
        have same {rest : List SourceLine} (part : rest <:+ lines) :
            readBlock f active a rest = readBlock f active b rest := by
          have short := part.length_le
          exact ih (by omega) (by omega)
        have module := same (suffix_readModule n cs lines)
        simp only [readBlock, same List.suffix_rfl]
        -- a module that is left out is passed over with the lines of its block
        cases found : readModule n cs lines with
        | mk result behind =>
          rw [found] at module
          cases result with
          | error e => rfl
          | ok m => simp only [module]

/-- The next block of some lines, however many they are. -/
def nextBlock (f : Format) (active : Feature → Bool) (lines : List SourceLine) :
    Except ReadError (Option ClassDescription) × List SourceLine :=
  readBlock f active (lines.length + 1) lines

theorem nextBlock_blank {n : Nat} {cs : List Char} (blank : allBlank cs) (rest : List SourceLine) :
    nextBlock f active (.text n cs :: rest) = nextBlock f active rest := by
  simp [nextBlock, readBlock, blank]

theorem nextBlock_module {n : Nat} {cs : List Char} (kind : LineKind.of cs = .moduleBlock)
    (rest : List SourceLine) :
    nextBlock f active (.text n cs :: rest) =
      match readModule n cs rest with
      | (.error e, rest) => (.error e, rest)
      | (.ok m, rest) => if active .moduleInfo then (.ok (some (.ofModule m)), rest) else nextBlock f active rest := by
  have filled : allBlank cs = false := allBlank_eq_false (by simp [kind])
  have short := (suffix_readModule n cs rest).length_le
  simp only [nextBlock, List.length_cons, readBlock, filled, Bool.false_eq_true, if_false, kind]
  cases found : readModule n cs rest with
  | mk result behind =>
    rw [found] at short
    cases result with
    | error e => rfl
    | ok m =>
      dsimp only at short ⊢
      rw [readBlock_of_enough (show behind.length < rest.length + 1 by omega) (Nat.lt_succ_self _)]

theorem nextBlock_class {n : Nat} {cs : List Char} (kind : LineKind.of cs = .classHeader) (rest : List SourceLine) :
    nextBlock f active (.text n cs :: rest) =
      ((readClass f active n cs rest).1.map some, (readClass f active n cs rest).2) := by
  have filled : allBlank cs = false := allBlank_eq_false (by simp [kind])
  simp only [nextBlock, List.length_cons, readBlock, filled, Bool.false_eq_true, if_false, kind]
  cases readClass f active n cs rest with
  | mk result behind => cases result <;> rfl

/-- A line that begins no block is blank or a fault. -/
theorem nextBlock_other {n : Nat} {cs : List Char} (filled : allBlank cs = false)
    (other : LineKind.of cs ≠ .moduleBlock ∧ LineKind.of cs ≠ .classHeader) (rest : List SourceLine) :
    ∃ e, nextBlock f active (.text n cs :: rest) = (.error e, rest) := by
  simp only [nextBlock, List.length_cons, readBlock, filled, Bool.false_eq_true, if_false]
  split
  · rename_i kind
    exact absurd kind other.1
  · rename_i kind
    exact absurd kind other.2
  · exact ⟨_, rfl⟩

/-- The next block when lines of which this was made stand before a text. -/
def inFrontOf (f : Format) (active : Feature → Bool) (found : Option ClassDescription) (tail : List SourceLine) :
    Except ReadError (Option ClassDescription) × List SourceLine :=
  match found with
  | some c => (.ok (some c), tail)
  | none => nextBlock f active tail

/-- A class or a module is read from the lines of its block, whatever their numbers are and whatever follows
them, as long as this begins with a block if what followed before did. Lines in which there is no block but
those that are left out make no difference to what follows them. -/
theorem FindsBlock.takes {limit n : Nat} {ls : List (List Char)} {found : Option ClassDescription}
    {rest : List SourceLine} (enough : ls.length < limit)
    (read : FindsBlock f active limit (numbered n ls) (.ok found) rest) :
    ∃ taken left, ls = taken ++ left ∧ rest = numbered (n + taken.length) left ∧
      (if found.isSome then taken ≠ [] else left = []) ∧
      ∀ m tail, (AtBlock rest → AtBlock tail) →
        nextBlock f active (numbered m taken ++ tail) = inFrontOf f active found tail := by
  induction limit generalizing n ls with
  | zero => omega
  | succ limit ih =>
    cases ls with
    | nil =>
      cases read
      exact ⟨[], [], rfl, rfl, rfl, fun m tail _ => rfl⟩
    | cons line ls =>
      have count (taken : List (List Char)) : n + 1 + taken.length = n + (line :: taken).length := by
        rw [List.length_cons, Nat.add_assoc, Nat.add_comm 1]
      rw [numbered_cons] at read
      rw [List.length_cons] at enough
      cases read with
      | blank blank more =>
        obtain ⟨taken, left, rfl, rfl, progress, again⟩ := ih (by omega) more
        refine ⟨line :: taken, left, rfl, by rw [count], by split at progress <;> simp_all, fun m tail next => ?_⟩
        rw [numbered_cons, List.cons_append, nextBlock_blank blank, again (m + 1) tail next]
      | module _ kind module on =>
        obtain ⟨taken, left, rfl, rfl, alone⟩ := readModule_takes module
        refine ⟨line :: taken, left, rfl, by rw [count], by simp, fun m tail next => ?_⟩
        rw [numbered_cons, List.cons_append, nextBlock_module kind, alone]
        exact if_pos on
      | hidden _ kind module off more =>
        obtain ⟨taken, left, rfl, rfl, alone⟩ := readModule_takes module
        rw [List.length_append] at enough
        -- the lines of a module that is left out come before those of the next block
        obtain ⟨taken', left', rfl, rfl, progress, again⟩ := ih (by omega) more
        refine ⟨line :: (taken ++ taken'), left', by simp, ?_, by split at progress <;> simp_all,
          fun m tail next => ?_⟩
        · rw [← count, List.length_append, ← Nat.add_assoc]
        · rw [numbered_cons, List.cons_append, nextBlock_module kind, numbered_append, List.append_assoc, alone,
            ← again (m + 1 + taken.length) tail next]
          exact if_neg (by simp [off])
      | class' _ kind class' =>
        obtain ⟨taken, left, rfl, rfl, next, alone⟩ := readClass_takes class'
        refine ⟨line :: taken, left, rfl, by rw [count], by simp, fun m tail after => ?_⟩
        rw [numbered_cons, List.cons_append, nextBlock_class kind, alone _ _ _ (after next)]
        rfl

/-! ### Blocks behind others -/

/-- A reader behind the header, at these lines. -/
def atLines (f : Format) (h : FileHeader) (lines : List SourceLine) : Reader := ⟨f, .reading, lines, h⟩

theorem readNext_atLines (f : Format) (h : FileHeader) (lines : List SourceLine) :
    (atLines f h lines).readNext =
      match nextBlock f (atLines f h []).hasFeature lines with
      | (.ok none, rest) => (.ok none, { atLines f h rest with phase := .closed })
      | (result, rest) => (result, atLines f h rest) := rfl

/-- What is read next is the next block, behind which the reader is unless there was none. -/
theorem nextBlock_of_readNext {h : FileHeader} {lines : List SourceLine} {found : Option ClassDescription} {r : Reader}
    (read : (atLines f h lines).readNext = (.ok found, r)) :
    ∃ rest, nextBlock f (atLines f h []).hasFeature lines = (.ok found, rest) ∧
      (found.isSome → r = atLines f h rest) := by
  rw [readNext_atLines] at read
  split at read <;> cases read
  · exact ⟨_, ‹_›, nofun⟩
  · exact ⟨_, ‹_›, fun _ => rfl⟩

/-- Where lines were read to their end, the same lines give the same in front of other blocks, and behind these
the reader is where these blocks alone are read. -/
theorem readUpTo_behind {h : FileHeader} {n limit : Nat} {ls : List (List Char)} {cs : List ClassDescription}
    {r : Reader} (enough : ls.length < limit)
    (read : (atLines f h (numbered n ls)).readUpTo limit = (.ok cs, r)) (m : Nat) {tail : List SourceLine}
    (next : AtBlock tail) :
    cs.length ≤ ls.length ∧ ∃ lines, (atLines f h (numbered m ls ++ tail)).readUpTo cs.length =
        (.ok cs, atLines f h lines) ∧
      (atLines f h lines).readNext = (atLines f h tail).readNext := by
  rw [← Reader.readsUpTo_iff] at read
  induction limit generalizing n ls cs m with
  | zero => omega
  | succ limit ih =>
    have short : ls.length < (numbered n ls).length + 1 := by simp [length_numbered]
    cases read with
    | ends finished =>
      obtain ⟨rest, block, -⟩ := nextBlock_of_readNext finished
      obtain ⟨taken, left, rfl, rfl, none, again⟩ := (findsBlock_iff.2 block).takes short
      obtain rfl : left = [] := none
      refine ⟨by simp, _, rfl, ?_⟩
      rw [readNext_atLines, List.append_nil, again m tail fun _ => next, inFrontOf, ← readNext_atLines]
    | @reads _ _ _ _ c cs read more =>
      obtain ⟨rest, block, behind⟩ := nextBlock_of_readNext read
      obtain rfl := behind rfl
      obtain ⟨taken, left, rfl, rfl, some, again⟩ := (findsBlock_iff.2 block).takes short
      have filled := List.length_pos_iff.2 (show taken ≠ [] from some)
      rw [List.length_append] at enough
      obtain ⟨few, lines, later, there⟩ := ih (by omega) more (m + taken.length)
      -- what is left of the lines begins with a block, or else the other blocks do
      have begins : AtBlock (numbered (n + taken.length) left) →
          AtBlock (numbered (m + taken.length) left ++ tail) := by
        cases left with
        | nil => exact fun _ => next
        | cons line left => exact id
      have first := again m _ begins
      rw [← List.append_assoc, ← numbered_append] at first
      refine ⟨by rw [List.length_cons, List.length_append]; omega, lines, ?_, there⟩
      rw [List.length_cons, Reader.readUpTo, readNext_atLines, first, inFrontOf]
      simp only [later]

/-- Where lines were read to their end, they give the same with other numbers. -/
theorem readUpTo_alone {h : FileHeader} {n limit : Nat} {ls : List (List Char)} {cs : List ClassDescription}
    {r : Reader} (enough : ls.length < limit)
    (read : (atLines f h (numbered n ls)).readUpTo limit = (.ok cs, r)) (m : Nat) {limit' : Nat}
    (enough' : ls.length < limit') : ((atLines f h (numbered m ls)).readUpTo limit').1 = .ok cs := by
  obtain ⟨few, lines, taken, there⟩ := readUpTo_behind enough read m (show AtBlock [] from trivial)
  rw [List.append_nil] at taken
  obtain ⟨more, rfl⟩ : ∃ k, limit' = cs.length + (k + 1) := ⟨limit' - cs.length - 1, by omega⟩
  have ended : (atLines f h []).readNext = (.ok none, { atLines f h [] with phase := .closed }) := rfl
  rw [readUpTo_add taken, readUpTo_congr there, Reader.readUpTo, ended]
  simp

/-- Where lines were read to their end, and others that begin with a block, both together give what the first
ones give and then what the others give. -/
theorem readUpTo_append {h : FileHeader} {n m a b : Nat} {front back : List (List Char)}
    {cs ds : List ClassDescription} {r r' : Reader} (enough : front.length < a) (enough' : back.length < b)
    (read : (atLines f h (numbered n front)).readUpTo a = (.ok cs, r))
    (read' : (atLines f h (numbered m back)).readUpTo b = (.ok ds, r')) (next : AtBlock (numbered m back))
    {k limit : Nat} (all : front.length + back.length < limit) :
    ((atLines f h (numbered k (front ++ back))).readUpTo limit).1 = .ok (cs ++ ds) := by
  have begins : AtBlock (numbered (k + front.length) back) := atBlock_numbered next _
  obtain ⟨few, lines, taken, there⟩ := readUpTo_behind enough read k begins
  obtain ⟨more, rfl⟩ : ∃ l, limit = cs.length + (l + 1) := ⟨limit - cs.length - 1, by omega⟩
  rw [numbered_append, readUpTo_add taken, readUpTo_congr there,
    readUpTo_alone enough' read' (k + front.length) (show back.length < more + 1 by omega)]
  rfl

/-! ### Files -/

/-- A line that a header may have behind the banner. -/
def IsHeaderLine (line : List Char) : Prop := versionLead <+: line ∨ line.head? = some '#'

/-- The text of a header: the banner, lines of a header, and a blank line that ends it. -/
structure IsHeader (cs : List Char) : Prop where
  ends : cs.getLast? = some '\n'
  lines : ∃ banner inner blank, lineTexts cs = banner :: inner ++ [blank] ∧
    (∀ line ∈ inner, IsHeaderLine line) ∧ allBlank blank

/-- The text of blocks: the first line begins one, and the last line has an end. -/
structure IsBlocks (cs : List Char) : Prop where
  ends : cs.getLast? = some '\n'
  begins : AtBlock (ofText cs)

theorem headerLine?_of_isHeaderLine {line : List Char} (isLine : IsHeaderLine line) (h : FileHeader) :
    allBlank line = false ∧ ∃ h', headerLine? h line = some h' := by
  rcases isLine with ⟨version, rfl⟩ | mark
  · exact ⟨rfl, _, headerLine?_version h version⟩
  · refine ⟨?_, ?_⟩
    · cases line with
      | nil => cases mark
      | cons c line =>
        obtain rfl : c = '#' := by simpa using mark
        rfl
    · unfold headerLine?
      split
      · exact ⟨_, rfl⟩
      · split
        · exact ⟨_, rfl⟩
        · split
          · exact ⟨_, rfl⟩
          · exact ⟨h, by rw [if_pos mark]⟩

/-- What is known behind one more line of a header. -/
def hear (h : FileHeader) (line : List Char) : FileHeader := (headerLine? h line).getD h

/-- The lines of a header are heard one after the other, whatever follows them. -/
theorem readHeaderLines_foldl {ls : List (List Char)} (lines : ∀ line ∈ ls, IsHeaderLine line) (h : FileHeader)
    (n : Nat) (rest : List SourceLine) : readHeaderLines h (numbered n ls ++ rest) = readHeaderLines (ls.foldl hear h) rest := by
  induction ls generalizing h n with
  | nil => rfl
  | cons line ls ih =>
    obtain ⟨filled, h', said⟩ := headerLine?_of_isHeaderLine (lines line (by simp)) h
    have heard : hear h line = h' := by simp [hear, said]
    rw [numbered_cons, List.cons_append, readHeaderLines_step filled said, List.foldl_cons, heard,
      ih fun l mem => lines l (by simp [mem])]

/-- The lines of a header say the same in front of everything. -/
theorem readHeaderLines_inner {inner : List (List Char)} {blank : List Char}
    (each : ∀ line ∈ inner, IsHeaderLine line) (isBlank : allBlank blank) (h : FileHeader) (n : Nat)
    (rest : List SourceLine) :
    readHeaderLines h (numbered n (inner ++ [blank]) ++ rest) = (.ok (), inner.foldl hear h, rest) := by
  rw [numbered_append, List.append_assoc, readHeaderLines_foldl each]
  simp [readHeaderLines, isBlank]

/-- A header is read in front of everything in the same way, unless it has another banner. -/
theorem readHeader_isHeader {f : Format} {head : List Char} (isHeader : IsHeader head) :
    (∃ h, ∀ body, (Reader.ofFormat f (ofText (head ++ body))).readHeader =
      (.ok (), atLines f h (numbered (1 + (lineTexts head).length) (lineTexts body)))) ∨
    ∀ body cs, (Reader.ofFormat f (ofText (head ++ body))).readAll.1 ≠ .ok cs := by
  obtain ⟨banner, inner, blank, lines, each, isBlank⟩ := isHeader.lines
  have all (body : List Char) : ofText (head ++ body) = .text 1 banner ::
      (numbered 2 (inner ++ [blank]) ++ numbered (1 + (lineTexts head).length) (lineTexts body)) := by
    rw [ofText_eq_numbered, lineTexts_append isHeader.ends, numbered_append, lines]
    rfl
  by_cases known : String.ofList (trimEnd banner) = f.banner
  · have said := readHeaderLines_inner each isBlank .blank
    refine .inl ⟨inner.foldl hear .blank, fun body => ?_⟩
    simp only [Reader.readHeader, Reader.ofFormat, all, ne_eq, not_true, if_false, known, said]
    rfl
  · refine .inr fun body cs same => ?_
    simp [Reader.readAll, Reader.readUpTo, Reader.readNext, Reader.readHeader, Reader.ofFormat, all, known] at same

/-- **Blocks are independent.** Where a header with some blocks and the same header with other blocks can be read,
the header with both can be read and gives what each of them gives, one after the other. -/
theorem readAll_append {f : Format} {head first second : List Char} {cs ds : List ClassDescription}
    (isHeader : IsHeader head) (blocks : IsBlocks first) (more : IsBlocks second)
    (read : (Reader.ofFormat f (ofText (head ++ first))).readAll.1 = .ok cs)
    (read' : (Reader.ofFormat f (ofText (head ++ second))).readAll.1 = .ok ds) :
    (Reader.ofFormat f (ofText (head ++ first ++ second))).readAll.1 = .ok (cs ++ ds) := by
  rcases readHeader_isHeader (f := f) isHeader with ⟨h, opened⟩ | never
  · have length (body : List Char) : (ofText (head ++ body)).length =
        (lineTexts head).length + (lineTexts body).length := by
      rw [ofText_eq_numbered, length_numbered, lineTexts_append isHeader.ends, List.length_append]
    have behind (body : List Char) : (Reader.ofFormat f (ofText (head ++ body))).readAll =
        (atLines f h (numbered (1 + (lineTexts head).length) (lineTexts body))).readUpTo
          ((lineTexts head).length + (lineTexts body).length + 1) := by
      rw [Reader.readAll, readUpTo_of_readHeader (opened body) rfl, ← length]
      rfl
    have begins : AtBlock (numbered (1 + (lineTexts head).length) (lineTexts second)) := by
      have atOne := more.begins
      rw [ofText_eq_numbered] at atOne
      exact atBlock_numbered atOne _
    rw [behind] at read read'
    rw [List.append_assoc, behind, lineTexts_append blocks.ends]
    exact readUpTo_append (by omega) (by omega) (Prod.ext read rfl) (Prod.ext read' rfl) begins
      (by rw [List.length_append]; omega)
  · exact absurd read (never first cs)

/-- A header. -/
def shortHeader : List Char := "#Signature file v4.3\nversion 1\n#ConstInfo\n\n".toList

/-- A class with an annotated method at its end, and hidden fields behind it. -/
def hidingBlock : List Char :=
  "CLSS public a.B\nMETH public void run()\nanno 0 java.lang.Deprecated()\nhfds secret\n\n".toList

/-- A module and a class without members. -/
def plainBlocks : List Char := "<module name=\"m\"/>\nCLSS a.C\nanno 0 a.D()\n".toList

theorem readAll_append_hidingBlock : ∃ cs ds,
    (Reader.ofFormat .v43 (ofText (shortHeader ++ hidingBlock))).readAll.1 = .ok cs ∧
      (Reader.ofFormat .v43 (ofText (shortHeader ++ plainBlocks))).readAll.1 = .ok ds ∧
      cs.map (·.name) = ["a.B"] ∧ ds.map (·.annotations.length) = [0, 1] ∧
      (Reader.ofFormat .v43 (ofText (shortHeader ++ hidingBlock ++ plainBlocks))).readAll.1 = .ok (cs ++ ds) := by
  have isHeader : IsHeader shortHeader :=
    ⟨by decide, _, ["version 1".toList, "#ConstInfo".toList], [], rfl, fun line mem => by
      rcases List.mem_pair.1 mem with rfl | rfl
      · exact .inl ⟨['1'], rfl⟩
      · exact .inr rfl, rfl⟩
  have blocks : IsBlocks hidingBlock := ⟨by decide, .inl (by decide)⟩
  have more : IsBlocks plainBlocks := ⟨by decide, .inr (by decide)⟩
  have named : ((Reader.ofFormat .v43 (ofText (shortHeader ++ hidingBlock))).readAll.1.toOption.map
      fun cs => cs.map (·.name)) = some ["a.B"] := by decide +kernel
  have used : ((Reader.ofFormat .v43 (ofText (shortHeader ++ plainBlocks))).readAll.1.toOption.map
      fun ds => ds.map (·.annotations.length)) = some [0, 1] := by decide +kernel
  obtain ⟨cs, found, names⟩ := Option.map_eq_some_iff.1 named
  obtain ⟨ds, found', uses⟩ := Option.map_eq_some_iff.1 used
  have read := ((toOption_eq_iff (y := .ok cs)).1 found cs).2 rfl
  have read' := ((toOption_eq_iff (y := .ok ds)).1 found' ds).2 rfl
  exact ⟨cs, ds, read, read', names, uses, readAll_append isHeader blocks more read read'⟩

end SignatureFile
end ApiSurface
