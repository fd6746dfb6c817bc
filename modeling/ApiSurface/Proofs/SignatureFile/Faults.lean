import ApiSurface.Proofs.SignatureFile.Operations
import ApiSurface.Proofs.SignatureFile.Sections

/-!
Where faults are reported. The number in a fault is that of a line of the file, the banner being the first,
and that line is the one that could not be processed: `FailsAt` tells for each fault which lines those are,
by what was asked of the line. Main statements: this holds of the lines of a class (`blames_gatherClass`,
`blames_readClass`), of the next block (`blames_readBlock`), and of whatever a reader reports that was opened for
a text (`Reader.blames_perform`).
-/

namespace ApiSurface

open ApiSurface.Text ApiSurface.SignatureFile

namespace SignatureFile

/-! ### The line that fails -/

/-- Whether a line begins a block. -/
def BeginsBlock (line : List Char) : Prop := LineKind.of line = .classHeader ∨ LineKind.of line = .moduleBlock

/-- The last line before that begins a block is the header of a class of this name. -/
def InClass (before : List (List Char)) (className : String) : Prop :=
  ∃ outer first inner header, before = outer ++ first :: inner ∧ LineKind.of first = .classHeader ∧
    Line.parseClassHeader first = .ok header ∧ header.name = className ∧ ∀ line ∈ inner, ¬BeginsBlock line

/-- The lines of a module block behind its first one: none, or all up to the first end tag. -/
def IsModuleBody (first : List Char) (body behind : List (List Char)) : Prop :=
  if isWholeModule first then body = []
  else ∃ inner last, body = inner ++ [last] ∧ body <+: behind ∧ occurs moduleEnd last ∧
    ∀ line ∈ inner, occurs moduleEnd line = false

/-- Lines with line feeds between them, the first one apart. -/
def joined (first : List Char) (more : List (List Char)) : List Char := first ++ more.flatMap ('\n' :: ·)

/-- The line behind these is the one that could not be processed, and this is the fault it is blamed for. -/
inductive FailsAt (f : Format) (before : List (List Char)) (line : List Char) (behind : List (List Char)) :
    Malformed → Prop
  /-- A line in the place of a block. -/
  | noBlock (filled : allBlank line = false) (other : ¬BeginsBlock line) :
    FailsAt f before line behind ⟨before.length + 1, .noClassHeader, String.ofList line⟩
  /-- A class header. -/
  | header {m : Malformed} (kind : LineKind.of line = .classHeader) (wrong : Line.parseClassHeader line = .error m) :
    FailsAt f before line behind (m.atLine (before.length + 1))
  /-- A line of a class that an old spelling does not have. -/
  | spelling {className : String} {m : Malformed} (inside : InClass before className) (other : ¬BeginsBlock line)
    (wrong : LegacyRule.decodeAll className f.rules line = .error m) :
    FailsAt f before line behind (m.atLine (before.length + 1))
  /-- An annotation. -/
  | use {className : String} {text : List Char} {fault : UseFault} (inside : InClass before className)
    (kind : LineKind.of line = .annotated) (spelled : LegacyRule.decodeAll className f.rules line = .ok (some text))
    (wrong : Annotated.ofLine text = .error fault) :
    FailsAt f before line behind ⟨before.length + 1, .use fault, String.ofList text⟩
  /-- A member. -/
  | member {className : String} {which : MemberKind} {text : List Char} {m : Malformed}
    (inside : InClass before className) (kind : LineKind.of line = .member which)
    (spelled : LegacyRule.decodeAll className f.rules line = .ok (some text))
    (wrong : Line.parseMember which className text = .error m) :
    FailsAt f before line behind (m.atLine (before.length + 1))
  /-- A line of a class that is none of its kinds. -/
  | unrecognized {className : String} {text : List Char} (inside : InClass before className)
    (filled : allBlank line = false) (kind : LineKind.of line = .unknown)
    (spelled : LegacyRule.decodeAll className f.rules line = .ok (some text)) :
    FailsAt f before line behind ⟨before.length + 1, .unrecognized, String.ofList text⟩
  /-- The first line of a module without an end. -/
  | endless (kind : LineKind.of line = .moduleBlock) (open' : isWholeModule line = false)
    (noEnd : ∀ l ∈ behind, occurs moduleEnd l = false) :
    FailsAt f before line behind ⟨before.length + 1, .moduleNotClosed, String.ofList (joined line behind)⟩
  /-- The first line of a module. -/
  | module {body : List (List Char)} {fault : ModuleFault} (kind : LineKind.of line = .moduleBlock)
    (block : IsModuleBody line body behind)
    (wrong : ModuleDescription.ofMarkup (String.ofList (joined line body)) = .error fault) :
    FailsAt f before line behind ⟨before.length + 1, .moduleBlock fault, String.ofList (joined line body)⟩

/-- Of these lines, which come behind others, one is blamed for a fault. -/
def Blames (f : Format) (before lines : List (List Char)) (m : Malformed) : Prop :=
  ∃ front line behind, lines = front ++ line :: behind ∧ FailsAt f (before ++ front) line behind m

variable {f : Format} {active : Feature → Bool} {before front ls : List (List Char)} {line : List Char}
  {m : Malformed} {rest : List SourceLine}

/-- The number in the fault is that of the line. -/
theorem FailsAt.number {behind : List (List Char)} (h : FailsAt f before line behind m) :
    m.line = before.length + 1 := by
  cases h <;> rfl

theorem FailsAt.blames {behind : List (List Char)} (h : FailsAt f before line behind m) :
    Blames f before (line :: behind) m :=
  ⟨[], line, behind, rfl, by rwa [List.append_nil]⟩

/-- The line that is blamed is among those behind further ones. -/
theorem Blames.of_append (h : Blames f (before ++ front) ls m) : Blames f before (front ++ ls) m := by
  obtain ⟨inner, line, behind, rfl, fails⟩ := h
  exact ⟨front ++ inner, line, behind, by simp, by rwa [← List.append_assoc]⟩

theorem Blames.of_cons (h : Blames f (before ++ [line]) ls m) : Blames f before (line :: ls) m := by
  have behind : Blames f before ([line] ++ ls) m := h.of_append
  exact behind

/-- The end of a list of lines is numbered on. -/
theorem exists_of_suffix_numbered {n : Nat} (part : rest <:+ numbered n ls) :
    ∃ front back, ls = front ++ back ∧ rest = numbered (n + front.length) back := by
  induction ls generalizing n with
  | nil =>
    obtain rfl : rest = [] := List.suffix_nil.1 part
    exact ⟨[], [], rfl, rfl⟩
  | cons line ls ih =>
    rcases List.suffix_cons_iff.1 part with rfl | part
    · exact ⟨[], line :: ls, rfl, rfl⟩
    · obtain ⟨front, back, rfl, same⟩ := ih part
      exact ⟨line :: front, back, rfl, by rw [same, List.length_cons, Nat.add_assoc, Nat.add_comm 1]⟩

/-! ### Modules -/

/-- A module without an end takes all lines. -/
theorem gatherModule_malformed {first k : Nat} {text : List Char}
    (read : gatherModule first text (numbered k ls) = (.error (.malformed m), rest)) :
    (∀ l ∈ ls, occurs moduleEnd l = false) ∧ m = ⟨first, .moduleNotClosed, String.ofList (joined text ls)⟩ := by
  induction ls generalizing text k with
  | nil =>
    cases read
    exact ⟨by simp, by simp [joined]⟩
  | cons line ls ih =>
    rw [numbered_cons, gatherModule] at read
    by_cases ends : occurs moduleEnd line
    · simp [ends] at read
    · rw [if_neg ends] at read
      obtain ⟨noEnd, rfl⟩ := ih read
      refine ⟨fun l mem => ?_, by simp [joined]⟩
      rcases List.mem_cons.1 mem with rfl | mem
      · simpa using ends
      · exact noEnd l mem

/-- The text of a module is that of its lines up to the first end tag. -/
theorem gatherModule_ok {first k : Nat} {text whole : List Char}
    (read : gatherModule first text (numbered k ls) = (.ok whole, rest)) :
    ∃ inner last behind, ls = inner ++ last :: behind ∧ whole = joined text (inner ++ [last]) ∧
      occurs moduleEnd last ∧ ∀ l ∈ inner, occurs moduleEnd l = false := by
  induction ls generalizing text k with
  | nil => cases read
  | cons line ls ih =>
    rw [numbered_cons, gatherModule] at read
    by_cases ends : occurs moduleEnd line
    · simp only [ends, if_true, Prod.mk.injEq, Except.ok.injEq] at read
      obtain ⟨rfl, -⟩ := read
      exact ⟨[], line, ls, rfl, by simp [joined], ends, by simp⟩
    · rw [if_neg ends] at read
      obtain ⟨inner, last, behind, rfl, rfl, closes, noEnd⟩ := ih read
      refine ⟨line :: inner, last, behind, rfl, by simp [joined], closes, fun l mem => ?_⟩
      rcases List.mem_cons.1 mem with rfl | mem
      · simpa using ends
      · exact noEnd l mem

/-- A module is blamed by its first line. -/
theorem failsAt_readModule (kind : LineKind.of line = .moduleBlock)
    (read : readModule (before.length + 1) line (numbered (before.length + 2) ls) = (.error (.malformed m), rest)) :
    FailsAt f before line ls m := by
  unfold readModule at read
  by_cases whole : isWholeModule line
  · simp only [whole, if_true] at read
    split at read
    · cases read
    · rename_i fault wrong
      cases read
      have same : joined line [] = line := by simp [joined]
      have block : IsModuleBody line [] ls := by simp [IsModuleBody, whole]
      have fails : FailsAt f before line ls _ := .module kind block (by rw [same]; exact wrong)
      rwa [same] at fails
  · simp only [whole, Bool.false_eq_true, if_false] at read
    cases gathered : gatherModule (before.length + 1) line (numbered (before.length + 2) ls) with
    | mk result behind =>
      rw [gathered] at read
      cases result with
      | error e =>
        cases read
        obtain ⟨noEnd, rfl⟩ := gatherModule_malformed gathered
        exact .endless kind (by simpa using whole) noEnd
      | ok text =>
        obtain ⟨inner, last, further, rfl, rfl, closes, noEnd⟩ := gatherModule_ok gathered
        dsimp only at read
        split at read
        · cases read
        · rename_i fault wrong
          cases read
          have front : inner ++ [last] <+: inner ++ last :: further := ⟨further, by simp⟩
          refine .module kind ?_ wrong
          rw [IsModuleBody, if_neg whole]
          exact ⟨inner, last, rfl, front, closes, noEnd⟩

/-! ### Classes -/

theorem InClass.concat {className : String} (h : InClass before className) (other : ¬BeginsBlock line) :
    InClass (before ++ [line]) className := by
  obtain ⟨outer, first, inner, header, rfl, kind, parsed, named, between⟩ := h
  refine ⟨outer, first, inner ++ [line], header, by simp, kind, parsed, named, fun l mem => ?_⟩
  rcases List.mem_append.1 mem with mem | mem
  · exact between l mem
  · obtain rfl := List.mem_singleton.1 mem
    exact other

/-- A line of a class block that was gathered from one of these lines, which come behind others. -/
structure GatheredFrom (f : Format) (className : String) (before : List (List Char)) (line : List Char)
    (b : BlockLine) : Prop where
  inside : InClass before className
  number : b.number = before.length + 1
  kind : b.kind = LineKind.of line
  other : ¬BeginsBlock line
  filled : allBlank line = false
  spelled : LegacyRule.decodeAll className f.rules line = .ok (some b.text)

/-- In the block of a class, a fault is blamed on one of the lines, and what is gathered comes from them. -/
theorem blames_gatherClass {className : String} {result : Except ReadError (List BlockLine)}
    (inside : InClass before className)
    (read : gatherClass f.rules className (numbered (before.length + 1) ls) = (result, rest)) :
    (∀ m, result = .error (.malformed m) → Blames f before ls m) ∧
      ∀ block, result = .ok block → ∀ b ∈ block, ∃ front line behind, ls = front ++ line :: behind ∧
        GatheredFrom f className (before ++ front) line b := by
  rw [← gathers_iff] at read
  induction ls generalizing before result with
  | nil =>
    cases read
    exact ⟨by simp, by simp⟩
  | cons line ls ih =>
    have count : before.length + 1 + 1 = (before ++ [line]).length + 1 := by simp
    -- what the lines behind this one give, for whatever result
    have later {result : Except ReadError (List BlockLine)} (other : ¬BeginsBlock line)
        (more : Gathers f.rules className (numbered (before.length + 1 + 1) ls) result rest) :
        (∀ m, result = .error (.malformed m) → Blames f before (line :: ls) m) ∧
          ∀ block, result = .ok block → ∀ b ∈ block, ∃ front l behind, line :: ls = front ++ l :: behind ∧
            GatheredFrom f className (before ++ front) l b := by
      rw [count] at more
      obtain ⟨blamed, gathered⟩ := ih (inside.concat other) more
      refine ⟨fun m wrong => (blamed m wrong).of_cons, fun block given b mem => ?_⟩
      obtain ⟨front, l, behind, rfl, gathers⟩ := gathered block given b mem
      exact ⟨line :: front, l, behind, rfl, by simpa using gathers⟩
    rw [numbered_cons] at read
    cases read with
    | next => exact ⟨by simp, by simp⟩
    | misspelled other filled wrong =>
      refine ⟨fun m' same => ?_, by simp⟩
      obtain rfl := ReadError.malformed.inj (Except.error.inj same)
      exact (FailsAt.spelling inside other wrong).blames
    | blank other _ more | dropped other _ _ more | lost other _ _ more => exact later other more
    | @kept _ _ text _ _ block other filled decoded more =>
      obtain ⟨-, gathered⟩ := later other more
      refine ⟨by simp, fun block' same b mem => ?_⟩
      obtain rfl := Except.ok.inj same
      rcases List.mem_cons.1 mem with rfl | mem
      · have first : GatheredFrom f className before line ⟨before.length + 1, LineKind.of line, text⟩ :=
          ⟨inside, rfl, rfl, other, by simpa using filled, decoded⟩
        exact ⟨[], line, ls, rfl, by rwa [List.append_nil]⟩
      · exact gathered block rfl b mem

/-- A fault of a gathered line is that of the line it comes from. -/
theorem failsAt_of_add {className : String} {behind : List (List Char)} {d : ClassDraft} {b : BlockLine}
    (gathered : GatheredFrom f className before line b) (name : d.description.name = className)
    (wrong : d.add active b = .error m) : FailsAt f before line behind m := by
  unfold ClassDraft.add at wrong
  cases kind : b.kind with
  | annotated =>
    simp only [kind] at wrong
    split at wrong
    · cases wrong
    · rename_i fault refused
      cases wrong
      rw [gathered.number]
      exact .use gathered.inside (gathered.kind ▸ kind) gathered.spelled refused
  | member which =>
    simp only [kind] at wrong
    split at wrong
    · cases wrong
    · rename_i m' refused
      cases wrong
      rw [gathered.number]
      exact .member gathered.inside (gathered.kind ▸ kind) gathered.spelled (name ▸ refused)
  | unknown =>
    simp only [kind] at wrong
    cases wrong
    rw [gathered.number]
    exact .unrecognized gathered.inside gathered.filled (gathered.kind ▸ kind) gathered.spelled
  | hiddenFields => simp [kind] at wrong
  | hiddenClasses => simp [kind] at wrong
  | classHeader => exact absurd (.inl (gathered.kind ▸ kind)) gathered.other
  | moduleBlock => exact absurd (.inr (gathered.kind ▸ kind)) gathered.other

/-- Of the lines of a block one is at fault, in the class whose block it is. -/
theorem exists_of_addAll {d : ClassDraft} {block : List BlockLine} (wrong : d.addAll active block = .error m) :
    ∃ b ∈ block, ∃ e : ClassDraft, e.description.name = d.description.name ∧ e.add active b = .error m := by
  induction block generalizing d with
  | nil => cases wrong
  | cons b more ih =>
    rw [ClassDraft.addAll] at wrong
    cases added : d.add active b with
    | error m' =>
      rw [added] at wrong
      cases wrong
      exact ⟨b, by simp, d, rfl, added⟩
    | ok d' =>
      rw [added] at wrong
      obtain ⟨b', mem, e, name, refused⟩ := ih wrong
      exact ⟨b', by simp [mem], e, name.trans (name_of_add added), refused⟩

/-- In the block of a class its first line is at fault or one of those behind it. -/
theorem blames_readClass (kind : LineKind.of line = .classHeader)
    (read : readClass f active (before.length + 1) line (numbered (before.length + 2) ls) =
      (.error (.malformed m), rest)) : Blames f before (line :: ls) m := by
  have count : before.length + 2 = (before ++ [line]).length + 1 := by simp
  have inside {header : ClassHeader} (first : Line.parseClassHeader line = .ok header) :
      InClass (before ++ [line]) header.name :=
    ⟨before, line, [], header, rfl, kind, first, rfl, by simp⟩
  rw [count] at read
  cases readsClass_iff.2 read with
  | badHeader wrong => exact (FailsAt.header kind wrong).blames
  | badBlock first gathered => exact ((blames_gatherClass (inside first) gathered).1 m rfl).of_cons
  | badLine first gathered wrong =>
    obtain ⟨b, mem, e, name, refused⟩ := exists_of_addAll wrong
    obtain ⟨front, l, further, rfl, comes⟩ := (blames_gatherClass (inside first) gathered).2 _ rfl b mem
    have fails : FailsAt f (before ++ [line] ++ front) l further m := failsAt_of_add comes name refused
    exact Blames.of_cons ⟨front, l, further, rfl, fails⟩

/-! ### Blocks -/

/-- Where the next block is looked for, one of the lines is at fault. -/
theorem blames_readBlock {limit : Nat}
    (read : readBlock f active limit (numbered (before.length + 1) ls) = (.error (.malformed m), rest)) :
    Blames f before ls m := by
  rw [← findsBlock_iff] at read
  induction limit generalizing before ls with
  | zero => cases read
  | succ limit ih =>
    cases ls with
    | nil => cases read
    | cons line ls =>
      have count : before.length + 1 + 1 = (before ++ [line]).length + 1 := by simp
      rw [numbered_cons] at read
      cases read with
      | blank _ more =>
        rw [count] at more
        exact (ih more).of_cons
      | noBlock filled other => exact (FailsAt.noBlock (by simpa using filled) other).blames
      | badModule _ kind wrong => exact (failsAt_readModule kind wrong).blames
      | hidden _ _ module _ more =>
        -- the lines of a module that is left out are passed over
        have part := suffix_readModule (before.length + 1) line (numbered (before.length + 1 + 1) ls)
        rw [module] at part
        obtain ⟨front, back, rfl, rfl⟩ := exists_of_suffix_numbered part
        have far : before.length + 1 + 1 + front.length = (before ++ [line] ++ front).length + 1 := by
          simp only [List.length_append, List.length_singleton]
          omega
        rw [far] at more
        exact (ih more).of_append.of_cons
      | badClass _ kind wrong => exact blames_readClass kind wrong

end SignatureFile

namespace Reader

variable {r r' : Reader} {lines : List (List Char)} {m : Malformed}

/-- The fault of a block is that of a line of the file. -/
theorem blames_readNext {result : Except ReadError (Option ClassDescription)} (left : r.lines <:+ numbered 1 lines)
    (read : r.readNext = (result, r')) (fault : faultOf result = some m) : Blames r.format [] lines m := by
  cases readsNext_iff.2 read with
  | @badHeader _ e wrong =>
    obtain ⟨-, -, noFault, -⟩ := leftOf_readHeader wrong
    have none : faultOf (.error e : Except ReadError (Option ClassDescription)) = Option.none := noFault
    rw [none] at fault
    cases fault
  | closed | ends | read => cases fault
  | @badBlock behind e _ opened _ block =>
    obtain ⟨format, part, -, -⟩ := leftOf_readHeader opened
    obtain ⟨front, back, rfl, here⟩ := exists_of_suffix_numbered (part.trans left)
    have wrong : e = .malformed m := by
      cases e with
      | malformed m' =>
        obtain rfl := Option.some.inj fault
        rfl
      | formatMismatch | undecodable => cases fault
    rw [here, wrong, Nat.add_comm 1, format] at block
    have blamed : Blames r.format ([] ++ front) back m := blames_readBlock block
    exact blamed.of_append

theorem blames_readUpTo {limit : Nat} {result : Except ReadError (List ClassDescription)}
    (left : r.lines <:+ numbered 1 lines) (read : r.readUpTo limit = (result, r')) (fault : faultOf result = some m) :
    Blames r.format [] lines m := by
  rw [← readsUpTo_iff] at read
  induction read with
  | stops | ends | reads => cases fault
  | fails next => exact blames_readNext left next fault
  | loses next _ later =>
    have step := stepsTo_readNext next
    rw [← step.format]
    exact later (step.left.suffix.trans left) fault

/-- The fault that an operation reports is that of a line of the file. -/
theorem blames_perform (left : r.lines <:+ numbered 1 lines) {op : ReaderOp}
    (fault : (r.perform op).1.fault? = some m) : Blames r.format [] lines m := by
  cases op with
  | header =>
    obtain ⟨-, -, none, -⟩ := leftOf_readHeader (r := r) rfl
    have noFault : (r.perform .header).1.fault? = Option.none := none
    rw [noFault] at fault
    cases fault
  | next => exact blames_readNext left rfl fault
  | all => exact blames_readUpTo left rfl fault
  | iterate =>
    have same : faultOf r.readNext.1 = some m := by
      have reported : faultOf r.iterate.1 = some m := fault
      unfold iterate at reported
      cases next : r.readNext with
      | mk result behind =>
        rw [next] at reported
        cases result <;> exact reported
    exact blames_readNext left rfl same

/-- A text whose first line is the banner of a format is opened like one that is expected to have the format. -/
theorem open?_ofText {cs first : List Char} {more : List (List Char)} {f : Format}
    (lines : lineTexts cs = first :: more) (known : Format.byBanner? first = some f) :
    open? (ofText cs) = .ok (some (ofFormat f (ofText cs))) := by
  rw [ofText_eq_numbered, lines, numbered_cons]
  simp only [open?, known, Option.map_some]

/-- **Positions of faults.** A text whose first line is the banner of a format gives the same reader whether it is
opened for that format or by the banner, and so the same answers. Whatever is done with a reader that was opened
for a text, the number in a fault that it reports is that of a line of the text, and this is the line that fails. -/
theorem fault_at_line (cs : List Char) :
    (∀ first more f, lineTexts cs = first :: more → Format.byBanner? first = some f →
      open? (ofText cs) = .ok (some (ofFormat f (ofText cs)))) ∧
    ∀ r, (open? (ofText cs) = .ok (some r) ∨ ∃ f, r = ofFormat f (ofText cs)) → ∀ before op m,
      ((r.after before).perform op).1.fault? = some m →
        1 ≤ m.line ∧ m.line ≤ (lineTexts cs).length ∧
          ∃ front line behind, lineTexts cs = front ++ line :: behind ∧ m.line = front.length + 1 ∧
            FailsAt r.format front line behind m := by
  refine ⟨fun first more f lines known => open?_ofText lines known, ?_⟩
  intro r opened before op m fault
  have own : r.lines = numbered 1 (lineTexts cs) := by
    rw [← ofText_eq_numbered]
    exact lines_of_opened opened
  obtain ⟨format, part⟩ := r.suffix_after before
  have left : (r.after before).lines <:+ numbered 1 (lineTexts cs) := own ▸ part
  obtain ⟨front, line, behind, whole, fails⟩ := blames_perform left fault
  rw [List.nil_append, format] at fails
  have number := fails.number
  have length : (lineTexts cs).length = front.length + (behind.length + 1) := by
    rw [whole, List.length_append, List.length_cons]
  exact ⟨by omega, by omega, front, line, behind, whole, number, fails⟩

/-- A file of an old format. Of its two fields, between which there is a blank line, the second one has a
constant without an end. -/
def openValue : List Char :=
  "#Signature file v3.1\n\nCLSS a.B\nFLD int m\n \nFLD int n <constant> <value=\"5\nSUPR a.C\n".toList

/-- What is wrong with it. -/
def openValueFault : Malformed := ⟨6, .valueNotClosed, "FLD int n <constant> <value=\"5"⟩

/-- The old spelling of the sixth line is at fault. -/
theorem fault_at_line_openValue :
    open? (ofText openValue) = .ok (some (ofFormat .v31 (ofText openValue))) ∧
    (((ofFormat .v31 (ofText openValue)).after [.header]).perform .all).1.fault? = some openValueFault ∧
    ∃ front line behind, lineTexts openValue = front ++ line :: behind ∧ 6 = front.length + 1 ∧
      FailsAt .v31 front line behind openValueFault := by
  obtain ⟨same, positions⟩ := fault_at_line openValue
  have opens : open? (ofText openValue) = .ok (some (ofFormat .v31 (ofText openValue))) :=
    same _ _ .v31 (List.cons_head_tail (by decide)).symm (by decide)
  have fault : (((ofFormat .v31 (ofText openValue)).after [.header]).perform .all).1.fault? =
      some openValueFault := by decide +kernel
  obtain ⟨-, -, found⟩ := positions _ (.inl opens) [.header] .all _ fault
  exact ⟨opens, fault, found⟩

end Reader
end ApiSurface
