import ApiSurface.Proofs.SignatureFile.Steps

/-!
What a run of a writer leaves in the file. Every step that fails adds no part of a block, so the file never ends
inside one. Main statements: what one class adds (`writeClass_cases`), and that after any run of steps the file
is empty or the header with the blocks of the classes that were written, in their order, while the steps behind
a class that has no old spelling go on as behind a header (`written_blocks`).
-/

namespace ApiSurface

open ApiSurface.Text ApiSurface.SignatureFile

namespace Writer

open WriterStep

/-! ### One step -/

/-- What comes of a step. -/
def outcome (w : Writer) : WriterStep → Except WriteError Unit
  | .removeFeature feature => (w.removeFeature feature).map fun _ => ()
  | .writeClass c => (w.writeClass c).2.1
  | .setApiVersion _ | .setCopyright _ | .writeHeader | .flush => .ok ()

/-- A class adds its whole block behind the header, or nothing but the header where it has no old spelling. -/
theorem writeClass_cases (w : Writer) (c : ClassDescription) :
    (∃ text, w.block c = .ok text ∧ w.outcome (.writeClass c) = .ok () ∧
      w.perform (.writeClass c) = (w.writeHeader.1 ++ text, w.writeHeader.2)) ∨
    (∃ m, w.block c = .error m ∧ w.outcome (.writeClass c) = .error (.malformed m) ∧
      w.perform (.writeClass c) = w.perform .writeHeader) := by
  simp only [outcome, perform, writeClass, block_writeHeader]
  cases w.block c with
  | ok text => exact .inl ⟨text, rfl, rfl, rfl⟩
  | error m => exact .inr ⟨m, rfl, rfl, rfl⟩

/-- Only a class can have no block, and then because its lines have none. -/
theorem block_eq_error {w : Writer} {c : ClassDescription} {m : Malformed} (failed : w.block c = .error m) :
    c.moduleInfo = none ∧ w.classLines c = .error m := by
  unfold block at failed
  cases info : c.moduleInfo with
  | some module =>
    rw [info] at failed
    cases failed
  | none =>
    rw [info] at failed
    cases lines : w.classLines c with
    | ok ls =>
      rw [lines] at failed
      cases failed
    | error m' =>
      rw [lines] at failed
      cases failed
      exact ⟨rfl, rfl⟩

/-! ### Runs -/

/-- The text in the file after some steps. -/
def written (w : Writer) : List WriterStep → List Char
  | [] => []
  | step :: more => (w.perform step).1 ++ (w.perform step).2.written more

/-- The text that each step adds, and what comes of it. -/
def transcript (w : Writer) : List WriterStep → List (List Char × Except WriteError Unit)
  | [] => []
  | step :: more => ((w.perform step).1, w.outcome step) :: (w.perform step).2.transcript more

/-- The class or module that a step writes, with the writer that writes it, unless the step fails. -/
def wrote? (w : Writer) : WriterStep → Option (Writer × ClassDescription)
  | .writeClass c => (w.outcome (.writeClass c)).toOption.map fun _ => (w, c)
  | .removeFeature _ | .setApiVersion _ | .setCopyright _ | .writeHeader | .flush => none

/-- The classes and modules that some steps write, each with the writer that writes it. -/
def wrote (w : Writer) : List WriterStep → List (Writer × ClassDescription)
  | [] => []
  | step :: more => (w.wrote? step).toList ++ (w.perform step).2.wrote more

/-- These are the texts of the blocks, each as the writer makes it. -/
def AreBlocks (calls : List (Writer × ClassDescription)) (texts : List (List Char)) : Prop :=
  List.Forall₂ (fun call text => call.1.block call.2 = .ok text) calls texts

theorem transcript_append (w : Writer) (a b : List WriterStep) :
    w.transcript (a ++ b) = w.transcript a ++ (w.after a).transcript b := by
  induction a generalizing w with
  | nil => rfl
  | cons step a ih => simp only [List.cons_append, transcript, after, ih]

/-- A file is what the steps write, and then the header unless they wrote it. -/
theorem fileText_eq_written (w : Writer) (steps : List WriterStep) :
    w.fileText steps = w.written steps ++ (w.after steps).close := by
  induction steps generalizing w with
  | nil => rfl
  | cons step more ih => rw [fileText, ih, written, after, List.append_assoc]

/-- The header counts as written behind any step that writes it. -/
theorem headerWritten_after {w : Writer} (steps : List WriterStep) :
    (w.after steps).headerWritten = (w.headerWritten || steps.any (·.writesHeader)) := by
  induction steps generalizing w with
  | nil => simp [after]
  | cons step more ih =>
    have first : (w.perform step).2.headerWritten = (w.headerWritten || step.writesHeader) := by
      cases writes : step.writesHeader with
      | false => rw [(headerWritten_perform writes).1, Bool.or_false]
      | true =>
        rw [Bool.or_true]
        cases step with
        | writeHeader => exact w.headerWritten_writeHeader
        | writeClass c => exact (congrArg _ (w.writeClass_snd c)).trans w.headerWritten_writeHeader
        | removeFeature | setApiVersion | setCopyright | flush => cases writes
    rw [after, ih, first, List.any_cons, Bool.or_assoc]

/-- The header that is still to be written, as it is when some steps come to write it. -/
def pendingHeader (w : Writer) (steps : List WriterStep) : List Char :=
  if w.headerWritten || !steps.any (·.writesHeader) then [] else (w.after (beforeHeader steps)).header

/-- Steps add the header, unless it is there or they do not write it, and then the blocks of what they write. -/
theorem exists_areBlocks_wrote (w : Writer) (steps : List WriterStep) :
    ∃ texts, AreBlocks (w.wrote steps) texts ∧ w.written steps = w.pendingHeader steps ++ texts.flatten := by
  induction steps generalizing w with
  | nil => exact ⟨[], .nil, by simp [written, pendingHeader]⟩
  | cons step more ih =>
    obtain ⟨texts, blocks, rest⟩ := ih (w.perform step).2
    cases writes : step.writesHeader with
    | false =>
      have silent := headerWritten_perform (w := w) writes
      have none : w.wrote? step = none := by
        cases step with
        | writeClass c => cases writes
        | removeFeature | setApiVersion | setCopyright | writeHeader | flush => rfl
      have header : (w.perform step).2.pendingHeader more = w.pendingHeader (step :: more) := by
        rw [pendingHeader, pendingHeader, silent.1, List.any_cons, writes, Bool.false_or, beforeHeader_cons, writes]
        rfl
      refine ⟨texts, ?_, ?_⟩
      · simpa [wrote, none] using blocks
      · rw [written, silent.2, List.nil_append, rest, header]
    | true =>
      have header : w.writeHeader.1 = w.pendingHeader (step :: more) := by
        cases known : w.headerWritten <;>
          simp [writeHeader, pendingHeader, known, writes, beforeHeader_cons, after]
      have none : w.writeHeader.2.pendingHeader more = [] := by
        simp [pendingHeader, w.headerWritten_writeHeader]
      -- a step that writes the header and nothing else, whatever it was meant to write
      have only (same : w.perform step = w.writeHeader) (missing : w.wrote? step = Option.none) :
          ∃ texts, AreBlocks (w.wrote (step :: more)) texts ∧
            w.written (step :: more) = w.pendingHeader (step :: more) ++ texts.flatten := by
        rw [same, none, List.nil_append] at rest
        rw [same] at blocks
        refine ⟨texts, ?_, ?_⟩
        · rw [wrote, missing, same]
          exact blocks
        · rw [written, same, rest, header]
      cases step with
      | writeHeader => exact only rfl rfl
      | writeClass c =>
        rcases w.writeClass_cases c with ⟨text, found, fine, done⟩ | ⟨m, -, failed, done⟩
        · have call : w.wrote? (.writeClass c) = some (w, c) := by simp [wrote?, fine, Except.toOption]
          rw [done, none, List.nil_append] at rest
          rw [done] at blocks
          refine ⟨text :: texts, ?_, ?_⟩
          · rw [wrote, call, done]
            exact .cons found blocks
          · rw [written, done, rest, header, List.flatten_cons, List.append_assoc]
        · exact only done (by simp [wrote?, failed, Except.toOption])
      | removeFeature | setApiVersion | setCopyright | flush => cases writes

/-- Steps that do not even write the header write nothing. -/
theorem wrote_eq_nil {w : Writer} {steps : List WriterStep} (silent : steps.any (·.writesHeader) = false) :
    w.wrote steps = [] := by
  induction steps generalizing w with
  | nil => rfl
  | cons step more ih =>
    obtain ⟨first, later⟩ := Bool.or_eq_false_iff.1 silent
    cases step with
    | writeHeader | writeClass c => cases first
    | removeFeature | setApiVersion | setCopyright | flush => exact ih later

/-- The file of a writer that has not written its header is that header and the blocks of what the steps write. -/
theorem exists_areBlocks_fileText {w : Writer} (unwritten : w.headerWritten = false) (steps : List WriterStep) :
    ∃ texts, AreBlocks (w.wrote steps) texts ∧
      w.written steps = (if steps.any (·.writesHeader) then
        (w.after (beforeHeader steps)).header ++ texts.flatten else []) ∧
      w.fileText steps = (w.after (beforeHeader steps)).header ++ texts.flatten := by
  obtain ⟨texts, blocks, whole⟩ := w.exists_areBlocks_wrote steps
  have state : (w.after steps).headerWritten = steps.any (·.writesHeader) := by
    rw [headerWritten_after, unwritten, Bool.false_or]
  refine ⟨texts, blocks, ?_⟩
  rw [fileText_eq_written, close, writeHeader, state, whole, pendingHeader, unwritten]
  cases writes : steps.any (·.writesHeader) with
  | true => simp
  | false =>
    rw [wrote_eq_nil writes] at blocks
    cases blocks
    have all : beforeHeader steps = steps :=
      List.takeWhile_eq_self_iff.2 fun step mem => by simpa using List.any_eq_false.1 writes step mem
    simp [all]

/-- **Whole blocks.** Whatever the steps, the file is empty until the first one that writes the header; from then on
it is the header as the writer had it there, and behind it the whole blocks of the classes and modules whose
writing succeeded, in their order and each as the writer made it then. The end writes the header if it is
missing, and nothing else. A class that fails has a line without an old spelling; it adds at most the header,
and everything behind it, texts and failures, is as if only the header had been written there. -/
theorem written_blocks (f : Format) (steps : List WriterStep) :
    (∃ texts, AreBlocks ((ofFormat f).wrote steps) texts ∧
      (ofFormat f).written steps = (if steps.any (·.writesHeader) then
        ((ofFormat f).after (beforeHeader steps)).header ++ texts.flatten else []) ∧
      (ofFormat f).fileText steps = ((ofFormat f).after (beforeHeader steps)).header ++ texts.flatten) ∧
    ∀ before c more e, steps = before ++ .writeClass c :: more →
      ((ofFormat f).after before).outcome (.writeClass c) = .error e →
      (∃ m, e = .malformed m ∧ c.moduleInfo = none ∧ ((ofFormat f).after before).classLines c = .error m) ∧
      ∃ header rest,
        header = (if before.any (·.writesHeader) then [] else ((ofFormat f).after before).header) ∧
        (ofFormat f).transcript steps = (ofFormat f).transcript before ++ (header, .error e) :: rest ∧
        (ofFormat f).transcript (before ++ .writeHeader :: more) =
          (ofFormat f).transcript before ++ (header, .ok ()) :: rest ∧
        (before.any (·.writesHeader) →
          (ofFormat f).transcript (before ++ more) = (ofFormat f).transcript before ++ rest) := by
  constructor
  · exact exists_areBlocks_fileText rfl steps
  · rintro before c more e rfl failed
    have state : ((ofFormat f).after before).headerWritten = before.any (·.writesHeader) :=
      headerWritten_after before
    set w := (ofFormat f).after before
    rcases w.writeClass_cases c with ⟨text, -, fine, -⟩ | ⟨m, noBlock, failed', done⟩
    · rw [fine] at failed
      cases failed
    · obtain rfl : .malformed m = e := Except.error.inj (failed'.symm.trans failed)
      obtain ⟨noModule, noLines⟩ := block_eq_error noBlock
      refine ⟨⟨m, rfl, noModule, noLines⟩, w.writeHeader.1, w.writeHeader.2.transcript more, ?_, ?_, ?_, ?_⟩
      · rw [writeHeader, state]
        split <;> rfl
      · rw [transcript_append, transcript, failed', done]
        rfl
      · rw [transcript_append]
        rfl
      · intro known
        rw [transcript_append, writeHeader_of_headerWritten (state.trans known)]

/-- A class whose method names a type that no old spelling can be cut out of: its last bracket is not opened. -/
def unspelledClass : ClassDescription :=
  { ClassDescription.named "a.B" .none with
    fields := [.field "a.B" "count" .none "int" none]
    methods := [.method "a.B" "next" .none "int" "a.B)"] }

/-- A run that sets the header up, fails at a class, and then writes another one. -/
def runPastUnspelledClass : List WriterStep :=
  [.setApiVersion "1", .writeClass unspelledClass, .removeFeature .constInfo,
    .writeClass { ClassDescription.named "a.C" .none with
      fields := [.field "a.C" "size" .none "int" (some "1")] }]

/-- The class that fails has a line that is written before the one without an old spelling, yet nothing of it is in
the file: the header it caused is there, before the feature was taken away, and the next class behind it. -/
theorem written_runPastUnspelledClass :
    (ofFormat .v21).written runPastUnspelledClass =
        "#Signature file v2.1\nversion 1\n\nCLSS a.C\nSUPR null\nFLD int size\n\n".toList ∧
      (∃ texts, AreBlocks ((ofFormat .v21).wrote runPastUnspelledClass) texts ∧
        (ofFormat .v21).written runPastUnspelledClass =
          ((ofFormat .v21).after [.setApiVersion "1"]).header ++ texts.flatten) ∧
      ∃ rest, (ofFormat .v21).transcript runPastUnspelledClass =
        (ofFormat .v21).transcript [.setApiVersion "1"] ++
          (((ofFormat .v21).after [.setApiVersion "1"]).header,
            .error (.malformed ⟨0, .bracket (.unbalanced ')'), "METH int next(a.B))"⟩)) :: rest := by
  obtain ⟨⟨texts, blocks, whole, -⟩, failing⟩ := written_blocks .v21 runPastUnspelledClass
  obtain ⟨-, header, rest, same, transcript, -⟩ :=
    failing [.setApiVersion "1"] unspelledClass _ (.malformed ⟨0, .bracket (.unbalanced ')'), "METH int next(a.B))"⟩)
      rfl (by rfl)
  refine ⟨by decide +kernel, ⟨texts, blocks, whole⟩, rest, ?_⟩
  rw [transcript, same]
  rfl

end Writer
end ApiSurface
