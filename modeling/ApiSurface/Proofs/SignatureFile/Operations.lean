import ApiSurface.Proofs.SignatureFile.Left

/-!
A reader used operation by operation. Whatever was done before, the lines that are left are the last ones of
the file, and the line of a fault is never among them (`leftOf_perform`). A fault met while iterating ends
the file, one that another operation reports does not: reading goes on behind it (`answers_behind_fault`).
-/

namespace ApiSurface

open ApiSurface.Text ApiSurface.SignatureFile

/-- Something done with a reader. -/
inductive ReaderOp where
  | header | next | all | iterate
  deriving DecidableEq, Repr

/-- What an operation gives. -/
inductive ReaderAnswer where
  | header (result : Except ReadError Unit)
  | next (result : Except ReadError (Option ClassDescription))
  | all (result : Except ReadError (List ClassDescription))

namespace ReaderAnswer

/-- The fault of a line that is reported. -/
def fault? : ReaderAnswer → Option Malformed
  | .header result => faultOf result
  | .next result => faultOf result
  | .all result => faultOf result

/-- Nothing is found and nothing is wrong. -/
def isEmpty : ReaderAnswer → Bool
  | .header (.ok ()) | .next (.ok none) | .all (.ok []) => true
  | _ => false

end ReaderAnswer

namespace Reader

/-- What an operation gives, with the reader behind it. -/
def perform (r : Reader) : ReaderOp → ReaderAnswer × Reader
  | .header => (.header r.readHeader.1, r.readHeader.2)
  | .next => (.next r.readNext.1, r.readNext.2)
  | .all => (.all r.readAll.1, r.readAll.2)
  | .iterate => (.next r.iterate.1, r.iterate.2)

/-- The reader behind some operations. -/
def after (r : Reader) (ops : List ReaderOp) : Reader := ops.foldl (fun r op => (r.perform op).2) r

/-- What operations give, one after the other. -/
def answers (r : Reader) : List ReaderOp → List ReaderAnswer
  | [] => []
  | op :: more => (r.perform op).1 :: (r.perform op).2.answers more

end Reader

namespace Reader

/-! ### One operation -/

variable {r r' : Reader}

/-- Reading the header leaves the end of the file and reports no faulty line. -/
theorem leftOf_readHeader {result : Except ReadError Unit} (read : r.readHeader = (result, r')) :
    r'.format = r.format ∧ r'.lines <:+ r.lines ∧ faultOf result = none ∧
      (result = .ok () → r'.phase ≠ .unopened) := by
  unfold readHeader at read
  split at read
  · rename_i opened
    cases read
    exact ⟨rfl, List.suffix_rfl, rfl, fun _ => opened⟩
  · split at read
    · cases read
      exact ⟨rfl, List.nil_suffix, rfl, nofun⟩
    · rename_i rest lines
      cases read
      exact ⟨rfl, lines ▸ List.suffix_cons _ _, rfl, nofun⟩
    · rename_i n cs rest lines
      split at read
      · cases read
        exact ⟨rfl, lines ▸ List.suffix_cons _ _, rfl, nofun⟩
      · cases found : readHeaderLines r.header rest with
        | mk inner behind =>
          obtain ⟨header, more⟩ := behind
          obtain ⟨part, none⟩ := leftOf_readHeaderLines found
          have inner_part : more <:+ r.lines := lines ▸ part.trans (List.suffix_cons _ _)
          rw [found] at read
          cases inner <;> cases read
          · exact ⟨rfl, inner_part, none, nofun⟩
          · exact ⟨rfl, inner_part, none, fun _ => by simp⟩

/-- What a step of reading does to a reader: the format stays, the end of the file is left without the line
of a fault, and after a fault the reader still reads. -/
structure StepsTo (r : Reader) (fault : Option Malformed) (r' : Reader) : Prop where
  format : r'.format = r.format
  left : LeftOf r.lines fault r'.lines
  reading : fault.isSome → r'.phase = .reading

/-- A reader that is open and was not closed is reading. -/
theorem reading_of_ne {phase : ReaderPhase} (opened : phase ≠ .unopened) (open' : phase ≠ .closed) :
    phase = .reading := by
  cases phase with
  | unopened => exact absurd rfl opened
  | reading => rfl
  | closed => exact absurd rfl open'

theorem stepsTo_readNext {result : Except ReadError (Option ClassDescription)}
    (read : r.readNext = (result, r')) : r.StepsTo (faultOf result) r' := by
  cases readsNext_iff.2 read with
  | @badHeader _ e wrong =>
    obtain ⟨format, part, none, -⟩ := leftOf_readHeader wrong
    have noFault : faultOf (.error e : Except ReadError (Option ClassDescription)) = Option.none := none
    exact ⟨format, noFault ▸ leftOf_none part, fun some => by simp [noFault] at some⟩
  | closed opened =>
    obtain ⟨format, part, -⟩ := leftOf_readHeader opened
    exact ⟨format, leftOf_none part, nofun⟩
  | badBlock opened open' block =>
    obtain ⟨format, part, -, phase⟩ := leftOf_readHeader opened
    exact ⟨format, LeftOf.of_suffix part (leftOf_readBlock block), fun _ => reading_of_ne (phase rfl) open'⟩
  | ends opened _ block | read opened _ block =>
    obtain ⟨format, part, -⟩ := leftOf_readHeader opened
    exact ⟨format, LeftOf.of_suffix part (leftOf_readBlock block), nofun⟩

/-- A step without a fault and one more. -/
theorem StepsTo.trans {fault : Option Malformed} {last : Reader} (h : r.StepsTo none r')
    (k : r'.StepsTo fault last) : r.StepsTo fault last :=
  ⟨k.format.trans h.format, LeftOf.of_suffix h.left.suffix k.left, k.reading⟩

theorem stepsTo_readUpTo {limit : Nat} {result : Except ReadError (List ClassDescription)}
    (read : r.readUpTo limit = (result, r')) : r.StepsTo (faultOf result) r' := by
  rw [← readsUpTo_iff] at read
  induction read with
  | stops => exact ⟨rfl, leftOf_none List.suffix_rfl, nofun⟩
  | fails next | ends next => exact stepsTo_readNext next
  | reads next _ later | loses next _ later => exact (stepsTo_readNext next).trans later

/-- What an operation does to a reader: the format stays, the end of the file is left without the line of a
fault, and a fault closes the reader if it was met while iterating, and only then. The header has none. -/
theorem leftOf_perform (r : Reader) (op : ReaderOp) :
    (r.perform op).2.format = r.format ∧ LeftOf r.lines (r.perform op).1.fault? (r.perform op).2.lines ∧
      ((r.perform op).1.fault?.isSome → op ≠ .header ∧
        (r.perform op).2.phase = if op = .iterate then .closed else .reading) := by
  cases op with
  | header =>
    obtain ⟨format, part, none, -⟩ := leftOf_readHeader (r := r) rfl
    have noFault : (r.perform .header).1.fault? = Option.none := none
    rw [noFault]
    exact ⟨format, leftOf_none part, nofun⟩
  | next =>
    have step : r.StepsTo (faultOf r.readNext.1) r.readNext.2 := stepsTo_readNext rfl
    exact ⟨step.format, step.left, fun some => ⟨nofun, step.reading some⟩⟩
  | all =>
    have step : r.StepsTo (faultOf r.readAll.1) r.readAll.2 := stepsTo_readUpTo rfl
    exact ⟨step.format, step.left, fun some => ⟨nofun, step.reading some⟩⟩
  | iterate =>
    have step : r.StepsTo (faultOf r.readNext.1) r.readNext.2 := stepsTo_readNext rfl
    simp only [perform, iterate, if_true]
    cases next : r.readNext with
    | mk result behind =>
      rw [next] at step
      cases result with
      | error e => exact ⟨step.format, step.left.nil, fun _ => ⟨nofun, rfl⟩⟩
      | ok given => exact ⟨step.format, step.left, nofun⟩

/-! ### Runs -/

/-- A closed reader gives nothing more. -/
theorem perform_of_closed (closed : r.phase = .closed) (op : ReaderOp) :
    (r.perform op).1.isEmpty ∧ (r.perform op).2 = r := by
  have header : r.readHeader = (.ok (), r) := by simp [readHeader, closed]
  have next : r.readNext = (.ok none, r) := by simp [readNext, header, closed]
  cases op with
  | header => simp [perform, header, ReaderAnswer.isEmpty]
  | next => simp [perform, next, ReaderAnswer.isEmpty]
  | all => simp [perform, readAll, readUpTo, next, ReaderAnswer.isEmpty]
  | iterate => simp [perform, iterate, next, ReaderAnswer.isEmpty]

theorem answers_of_closed (closed : r.phase = .closed) (ops : List ReaderOp) :
    ∀ a ∈ r.answers ops, a.isEmpty := by
  induction ops with
  | nil => simp [answers]
  | cons op more ih =>
    obtain ⟨empty, same⟩ := perform_of_closed closed op
    intro a mem
    rw [answers, same] at mem
    rcases List.mem_cons.1 mem with rfl | mem
    · exact empty
    · exact ih a mem

/-- Operations leave the end of the file. -/
theorem suffix_after (r : Reader) (ops : List ReaderOp) :
    (r.after ops).format = r.format ∧ (r.after ops).lines <:+ r.lines := by
  induction ops generalizing r with
  | nil => exact ⟨rfl, List.suffix_rfl⟩
  | cons op more ih =>
    obtain ⟨format, left, -⟩ := r.leftOf_perform op
    obtain ⟨format', part⟩ := ih (r.perform op).2
    exact ⟨format'.trans format, part.trans left.suffix⟩

/-- A reader begins at the first line, whichever way it was opened. -/
theorem lines_of_opened {lines : List SourceLine}
    (opened : Reader.open? lines = .ok (some r) ∨ ∃ f, r = .ofFormat f lines) : r.lines = lines := by
  rcases opened with found | ⟨f, rfl⟩
  · unfold Reader.open? at found
    split at found <;> simp at found
    obtain ⟨f, -, rfl⟩ := found
    rfl
  · rfl

/-- **Faulty lines.** A reader was opened for some lines, with a format or by their banner. Once an operation
reports a faulty line, that line and those before it are not read again. If the fault was met while iterating,
nothing is read any more; if not, the reader goes on with the lines behind it as if these stood alone. -/
theorem answers_behind_fault {lines : List SourceLine} {r : Reader}
    (opened : Reader.open? lines = .ok (some r) ∨ ∃ f, r = .ofFormat f lines) (before : List ReaderOp)
    {op : ReaderOp} {m : Malformed} (fault : ((r.after before).perform op).1.fault? = some m)
    (later : List ReaderOp) :
    op ≠ .header ∧
    (op = .iterate → ∀ a ∈ (r.after (before ++ [op])).answers later, a.isEmpty) ∧
    (op ≠ .iterate → ∃ front rest header cs, lines = front ++ rest ∧ .text m.line cs ∈ front ∧
      (r.after (before ++ [op])).answers later = (⟨r.format, .reading, rest, header⟩ : Reader).answers later) := by
  have own := lines_of_opened opened
  obtain ⟨format, part⟩ := r.suffix_after before
  obtain ⟨format', left, phase⟩ := (r.after before).leftOf_perform op
  have step : r.after (before ++ [op]) = ((r.after before).perform op).2 := by simp [after]
  rw [step]
  rw [fault] at left phase
  obtain ⟨notHeader, phase⟩ := phase rfl
  refine ⟨notHeader, fun iterating => answers_of_closed (by rw [phase, if_pos iterating]) later, fun other => ?_⟩
  obtain ⟨front, same, inFront⟩ := LeftOf.of_suffix part left
  obtain ⟨cs, inFront⟩ := inFront m rfl
  refine ⟨front, _, ((r.after before).perform op).2.header, cs, own ▸ same, inFront, ?_⟩
  rw [if_neg other] at phase
  rw [← format, ← format', ← phase]

/-- A file with a line of a field before its class. -/
def strayField : List SourceLine :=
  ofText "#Signature file v4.3\nversion 1\n\nFLD public int size\n\nCLSS public a.B\n\n".toList

/-- The class behind a line that is none of its own is read after the fault was reported. -/
theorem answers_behind_strayField :
    ∃ r, Reader.open? strayField = .ok (some r) ∧
      ((r.after [.header]).perform .next).1.fault? = some ⟨4, .noClassHeader, "FLD public int size"⟩ ∧
      ∃ front rest header cs, strayField = front ++ rest ∧ .text 4 cs ∈ front ∧
        (r.after ([.header] ++ [.next])).answers [.all] =
          (⟨r.format, .reading, rest, header⟩ : Reader).answers [.all] := by
  have opens : Reader.open? strayField = .ok (some (ofFormat .v43 strayField)) := rfl
  have fault : (((ofFormat .v43 strayField).after [.header]).perform .next).1.fault? =
      some ⟨4, .noClassHeader, "FLD public int size"⟩ := by decide +kernel
  exact ⟨_, opens, fault, (answers_behind_fault (.inl opens) [.header] fault [.all]).2.2 nofun⟩

/-- Reading does not end at a faulty line: the next call gives the class behind it. -/
theorem answers_next_strayField :
    ((ofFormat .v43 strayField).answers [.next, .next]).map (fun a => (a.fault?, a.isEmpty)) =
      [(some ⟨4, .noClassHeader, "FLD public int size"⟩, false), (none, false)] := by
  decide +kernel

end Reader
end ApiSurface
