import ApiSurface.Proofs.SignatureFile.Lines
import ApiSurface.Proofs.SignatureFile.Operations

/-!
Lines further down in a file. Nothing that is read depends on the numbers of lines, but for the place of a
fault. Main statement: where every line stands some lines further down, every operation of a reader gives the
same, with its fault as many lines further down (`FurtherDown.answers`).
-/

namespace ApiSurface

open ApiSurface.Text ApiSurface.SignatureFile

/-- The fault this many lines further down. -/
def Malformed.shift (k : Nat) (m : Malformed) : Malformed := m.atLine (m.line + k)

/-- The error with its place this many lines further down. -/
def ReadError.shift (k : Nat) : ReadError → ReadError
  | .formatMismatch line => .formatMismatch line
  | .malformed m => .malformed (m.shift k)
  | .undecodable => .undecodable

namespace SignatureFile

/-- The line this many lines further down. -/
def SourceLine.shift (k : Nat) : SourceLine → SourceLine
  | .text n cs => .text (n + k) cs
  | .undecodable => .undecodable

/-- The line of a block this many lines further down. -/
def BlockLine.shift (k : Nat) (line : BlockLine) : BlockLine := { line with number := line.number + k }

/-- What was read, and the lines that are left, this many lines further down. -/
def shiftRead {α : Type} (k : Nat) (read : Except ReadError α × List SourceLine) :
    Except ReadError α × List SourceLine :=
  (read.1.mapError (ReadError.shift k), read.2.map (SourceLine.shift k))

theorem map_shift_numbered (k n : Nat) (ls : List (List Char)) :
    (numbered n ls).map (SourceLine.shift k) = numbered (n + k) ls := by
  induction ls generalizing n with
  | nil => rfl
  | cons line ls ih => simp [SourceLine.shift, ih, Nat.add_right_comm]

variable (k : Nat)

/-! ### Blocks -/

theorem gatherModule_shift (first : Nat) (text : List Char) (lines : List SourceLine) :
    gatherModule (first + k) text (lines.map (SourceLine.shift k)) =
      shiftRead k (gatherModule first text lines) := by
  induction lines generalizing text with
  | nil => rfl
  | cons line lines ih =>
    cases line with
    | undecodable => rfl
    | text n cs =>
      simp only [List.map_cons, SourceLine.shift, gatherModule]
      cases occurs moduleEnd cs with
      | true => rfl
      | false => exact ih (text ++ '\n' :: cs)

theorem readModule_shift (first : Nat) (cs : List Char) (lines : List SourceLine) :
    readModule (first + k) cs (lines.map (SourceLine.shift k)) = shiftRead k (readModule first cs lines) := by
  unfold readModule
  cases isWholeModule cs with
  | true =>
    simp only [if_true]
    cases ModuleDescription.ofMarkup (String.ofList cs) <;> rfl
  | false =>
    simp only [Bool.false_eq_true, if_false, gatherModule_shift]
    cases gatherModule first cs lines with
    | mk text rest =>
      cases text with
      | error e => rfl
      | ok text =>
        dsimp only [shiftRead, Except.mapError]
        cases ModuleDescription.ofMarkup (String.ofList text) <;> rfl

theorem Gathers.shift {rules : List LegacyRule} {className : String} {lines left : List SourceLine}
    {result : Except ReadError (List BlockLine)} (h : Gathers rules className lines result left) :
    Gathers rules className (lines.map (SourceLine.shift k))
      ((result.map (List.map (BlockLine.shift k))).mapError (ReadError.shift k)) (left.map (SourceLine.shift k)) := by
  induction h with
  | ends => exact .ends
  | undecodable => exact .undecodable
  | next starts => exact .next starts
  | @misspelled _ _ _ m inside filled wrong => exact .misspelled (m := m) inside filled wrong
  | blank inside blank _ later => exact .blank inside blank later
  | dropped inside filled decoded _ later => exact .dropped inside filled decoded later
  | kept inside filled decoded _ later => exact .kept inside filled decoded later
  | lost inside filled decoded _ later => exact .lost inside filled decoded later

theorem add_shift (active : Feature → Bool) (d : ClassDraft) (line : BlockLine) :
    d.add active (line.shift k) = (d.add active line).mapError (Malformed.shift k) := by
  obtain ⟨number, kind, text⟩ := line
  unfold ClassDraft.add
  cases kind with
  | annotated =>
    dsimp only [BlockLine.shift]
    cases Annotated.ofLine text <;> rfl
  | member kind =>
    dsimp only [BlockLine.shift]
    cases Line.parseMember kind d.description.name text <;> rfl
  | hiddenFields | hiddenClasses | classHeader | moduleBlock | unknown => rfl

theorem addAll_shift (active : Feature → Bool) (d : ClassDraft) (block : List BlockLine) :
    d.addAll active (block.map (BlockLine.shift k)) = (d.addAll active block).mapError (Malformed.shift k) := by
  induction block generalizing d with
  | nil => rfl
  | cons line block ih =>
    rw [List.map_cons, ClassDraft.addAll, ClassDraft.addAll, add_shift]
    cases d.add active line with
    | error m => rfl
    | ok d' => exact ih d'

theorem ReadsClass.shift {f : Format} {active : Feature → Bool} {first : Nat} {cs : List Char}
    {lines left : List SourceLine} {result : Except ReadError ClassDescription}
    (h : ReadsClass f active first cs lines result left) :
    ReadsClass f active (first + k) cs (lines.map (SourceLine.shift k)) (result.mapError (ReadError.shift k))
      (left.map (SourceLine.shift k)) := by
  have block {header : ClassHeader} {result : Except ReadError (List BlockLine)}
      (gathered : gatherClass f.rules header.name lines = (result, left)) := gathers_iff.1 ((gathers_iff.2 gathered).shift k)
  cases h with
  | @badHeader m wrong => exact .badHeader (m := m) wrong
  | badBlock header gathered => exact .badBlock header (block gathered)
  | badLine header gathered wrong =>
    refine .badLine header (block gathered) ?_
    rw [addAll_shift, wrong]
    rfl
  | read header gathered added =>
    refine .read header (block gathered) ?_
    rw [addAll_shift, added]
    rfl

theorem FindsBlock.shift {f : Format} {active : Feature → Bool} {limit : Nat} {lines left : List SourceLine}
    {result : Except ReadError (Option ClassDescription)} (h : FindsBlock f active limit lines result left) :
    FindsBlock f active limit (lines.map (SourceLine.shift k)) (result.mapError (ReadError.shift k))
      (left.map (SourceLine.shift k)) := by
  have module {n : Nat} {cs : List Char} {rest behind : List SourceLine}
      {result : Except ReadError ModuleDescription} (read : readModule n cs rest = (result, behind)) :=
    (readModule_shift k n cs rest).trans (congrArg (shiftRead k) read)
  have class' {n : Nat} {cs : List Char} {rest behind : List SourceLine}
      {result : Except ReadError ClassDescription} (read : readClass f active n cs rest = (result, behind)) :=
    readsClass_iff.1 ((readsClass_iff.2 read).shift k)
  induction h with
  | stops => exact .stops
  | ends => exact .ends
  | undecodable => exact .undecodable
  | blank blank _ later => exact .blank blank later
  | noBlock filled other => exact .noBlock filled other
  | badModule filled kind wrong => exact .badModule filled kind (module wrong)
  | module filled kind read on => exact .module filled kind (module read) on
  | hidden filled kind read off _ later => exact .hidden filled kind (module read) off later
  | badClass filled kind wrong => exact .badClass filled kind (class' wrong)
  | class' filled kind read => exact .class' filled kind (class' read)

theorem readBlock_shift (f : Format) (active : Feature → Bool) (limit : Nat) (lines : List SourceLine) :
    readBlock f active limit (lines.map (SourceLine.shift k)) = shiftRead k (readBlock f active limit lines) :=
  findsBlock_iff.1 ((findsBlock_readBlock f active limit lines).shift k)

end SignatureFile

/-! ### Readers -/

/-- What an operation gives this many lines further down. -/
def ReaderAnswer.shift (k : Nat) : ReaderAnswer → ReaderAnswer
  | .header result => .header (result.mapError (ReadError.shift k))
  | .next result => .next (result.mapError (ReadError.shift k))
  | .all result => .all (result.mapError (ReadError.shift k))

namespace Reader

/-- Behind their headers, two readers of the same lines, which for the second one stand this many lines further
down. Their headers may differ, but not in the features that they say were left out. -/
structure FurtherDown (k : Nat) (r p : Reader) : Prop where
  format : p.format = r.format
  phase : p.phase = r.phase
  opened : r.phase ≠ .unopened
  lines : p.lines = r.lines.map (SourceLine.shift k)
  absent : p.header.absent = r.header.absent

namespace FurtherDown

variable {k : Nat} {r p : Reader}

theorem hasFeature (h : FurtherDown k r p) : p.hasFeature = r.hasFeature := by
  funext feature
  rw [Reader.hasFeature, Reader.hasFeature, h.format, h.absent]

theorem length (h : FurtherDown k r p) : p.lines.length = r.lines.length := by
  rw [h.lines, List.length_map]

/-- Both readers at other lines. -/
theorem behind (h : FurtherDown k r p) (rest : List SourceLine) :
    FurtherDown k { r with lines := rest } { p with lines := rest.map (SourceLine.shift k) } :=
  ⟨h.format, h.phase, h.opened, rfl, h.absent⟩

/-- Both readers closed. -/
theorem closed (h : FurtherDown k r p) :
    FurtherDown k { r with phase := .closed } { p with phase := .closed } :=
  ⟨h.format, rfl, by simp, h.lines, h.absent⟩

theorem readHeader (h : FurtherDown k r p) : r.readHeader = (.ok (), r) ∧ p.readHeader = (.ok (), p) := by
  have opened : p.phase ≠ .unopened := h.phase ▸ h.opened
  constructor
  · rw [Reader.readHeader, if_pos h.opened]
  · rw [Reader.readHeader, if_pos opened]

theorem readNext (h : FurtherDown k r p) {result : Except ReadError (Option ClassDescription)} {r' : Reader}
    (read : r.readNext = (result, r')) :
    ∃ p', p.readNext = (result.mapError (ReadError.shift k), p') ∧ FurtherDown k r' p' := by
  have block {result : Except ReadError (Option ClassDescription)} {rest : List SourceLine}
      (found : readBlock r.format r.hasFeature (r.lines.length + 1) r.lines = (result, rest)) :
      readBlock p.format p.hasFeature (p.lines.length + 1) p.lines =
        (result.mapError (ReadError.shift k), rest.map (SourceLine.shift k)) := by
    rw [h.format, h.hasFeature, h.length, h.lines, readBlock_shift, found]
    rfl
  have reads (reading : r.phase ≠ .closed) : p.phase ≠ .closed := h.phase ▸ reading
  obtain ⟨stays, stays'⟩ := h.readHeader
  cases readsNext_iff.2 read with
  | badHeader wrong => cases stays.symm.trans wrong
  | closed opened closed =>
    cases stays.symm.trans opened
    exact ⟨p, readsNext_iff.1 (.closed stays' (h.phase.trans closed)), h⟩
  | badBlock opened reading wrong =>
    cases stays.symm.trans opened
    exact ⟨_, readsNext_iff.1 (.badBlock stays' (reads reading) (block wrong)), h.behind _⟩
  | @ends _ rest opened reading finished =>
    cases stays.symm.trans opened
    exact ⟨_, readsNext_iff.1 (.ends stays' (reads reading) (block finished)), (h.behind rest).closed⟩
  | read opened reading found =>
    cases stays.symm.trans opened
    exact ⟨_, readsNext_iff.1 (.read stays' (reads reading) (block found)), h.behind _⟩

theorem readUpTo (h : FurtherDown k r p) {limit : Nat} {result : Except ReadError (List ClassDescription)}
    {r' : Reader} (read : r.readUpTo limit = (result, r')) :
    ∃ p', p.readUpTo limit = (result.mapError (ReadError.shift k), p') ∧ FurtherDown k r' p' := by
  rw [← readsUpTo_iff] at read
  simp only [← readsUpTo_iff]
  induction read generalizing p with
  | stops => exact ⟨p, .stops, h⟩
  | fails next =>
    obtain ⟨p', same, there⟩ := h.readNext next
    exact ⟨p', .fails same, there⟩
  | ends next =>
    obtain ⟨p', same, there⟩ := h.readNext next
    exact ⟨p', .ends same, there⟩
  | reads next _ ih =>
    obtain ⟨p', same, there⟩ := h.readNext next
    obtain ⟨last, later, there'⟩ := ih there
    exact ⟨last, .reads same later, there'⟩
  | loses next _ ih =>
    obtain ⟨p', same, there⟩ := h.readNext next
    obtain ⟨last, later, there'⟩ := ih there
    exact ⟨last, .loses same later, there'⟩

/-- An operation gives the same, and leads to the same lines. -/
theorem perform (h : FurtherDown k r p) (op : ReaderOp) :
    (p.perform op).1 = (r.perform op).1.shift k ∧ FurtherDown k (r.perform op).2 (p.perform op).2 := by
  cases op with
  | header =>
    simp only [Reader.perform, h.readHeader.1, h.readHeader.2]
    exact ⟨rfl, h⟩
  | next =>
    obtain ⟨p', same, there⟩ := h.readNext rfl
    simp only [Reader.perform, same]
    exact ⟨rfl, there⟩
  | all =>
    have read : r.readUpTo (r.lines.length + 1) = r.readAll := rfl
    obtain ⟨p', same, there⟩ := h.readUpTo read
    simp only [Reader.perform, readAll, h.length, same]
    exact ⟨rfl, there⟩
  | iterate =>
    cases first : r.readNext with
    | mk result behind =>
      obtain ⟨p', same, there⟩ := h.readNext first
      simp only [Reader.perform, iterate, first, same]
      cases result with
      | error e => exact ⟨rfl, (there.behind []).closed⟩
      | ok found => exact ⟨rfl, there⟩

/-- All operations give the same, but for the numbers of lines at which they find faults. -/
theorem answers (h : FurtherDown k r p) (ops : List ReaderOp) :
    p.answers ops = (r.answers ops).map (ReaderAnswer.shift k) := by
  induction ops generalizing r p with
  | nil => rfl
  | cons op more ih =>
    obtain ⟨same, next⟩ := h.perform op
    rw [Reader.answers, Reader.answers, List.map_cons, same, ih next]

end FurtherDown
end Reader
end ApiSurface
