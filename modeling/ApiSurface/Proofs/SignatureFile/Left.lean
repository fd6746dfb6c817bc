import Mathlib
import ApiSurface.Proofs.SignatureFile.Derivations

/-!
What is left of the lines of a file when reading stops. It is always the end of the file, and the line of a
fault that is reported is not in it. Main statements: this holds of the header (`leftOf_readHeaderLines`)
and of every block (`leftOf_readBlock`).
-/

namespace ApiSurface

open ApiSurface.Text ApiSurface.SignatureFile

/-- The fault of a line, if it is one. -/
def ReadError.fault? : ReadError → Option Malformed
  | .malformed m => some m
  | _ => none

/-- The fault of a line that is reported. -/
def faultOf {α : Type} : Except ReadError α → Option Malformed
  | .ok _ => none
  | .error e => e.fault?

namespace SignatureFile

/-- What is left of some lines are the last ones of them, and the line of a fault is none of these. -/
def LeftOf (lines : List SourceLine) (fault : Option Malformed) (rest : List SourceLine) : Prop :=
  ∃ front, lines = front ++ rest ∧ ∀ m ∈ fault, ∃ cs, .text m.line cs ∈ front

variable {lines more rest : List SourceLine} {fault : Option Malformed}

theorem LeftOf.suffix (h : LeftOf lines fault rest) : rest <:+ lines := by
  obtain ⟨front, same, -⟩ := h
  exact ⟨front, same.symm⟩

/-- Lines that were read before come in front. -/
theorem LeftOf.of_suffix (part : more <:+ lines) (h : LeftOf more fault rest) : LeftOf lines fault rest := by
  obtain ⟨before, rfl⟩ := part
  obtain ⟨front, rfl, faults⟩ := h
  refine ⟨before ++ front, (List.append_assoc ..).symm, fun m mem => ?_⟩
  obtain ⟨cs, inFront⟩ := faults m mem
  exact ⟨cs, List.mem_append_right _ inFront⟩

/-- If nothing is left, no line of a fault is left. -/
theorem LeftOf.nil (h : LeftOf lines fault rest) : LeftOf lines fault [] := by
  obtain ⟨front, rfl, faults⟩ := h
  refine ⟨front ++ rest, by simp, fun m mem => ?_⟩
  obtain ⟨cs, inFront⟩ := faults m mem
  exact ⟨cs, List.mem_append_left _ inFront⟩

theorem leftOf_none (part : rest <:+ lines) : LeftOf lines none rest := by
  obtain ⟨front, rfl⟩ := part
  exact ⟨front, rfl, by simp⟩

/-- A fault of the first line. -/
theorem leftOf_first {n : Nat} {cs : List Char} (line : ∀ m ∈ fault, m.line = n) (part : rest <:+ lines) :
    LeftOf (.text n cs :: lines) fault rest := by
  obtain ⟨front, rfl⟩ := part
  exact ⟨.text n cs :: front, rfl, fun m mem => ⟨cs, by simp [line m mem]⟩⟩

theorem leftOf_gatherModule {first : Nat} {text : List Char} {result : Except ReadError (List Char)}
    (read : gatherModule first text lines = (result, rest)) :
    rest <:+ lines ∧ ∀ m ∈ faultOf result, m.line = first := by
  induction lines generalizing text with
  | nil =>
    cases read
    exact ⟨List.suffix_rfl, by simp [faultOf, ReadError.fault?]⟩
  | cons line lines ih =>
    cases line with
    | undecodable =>
      cases read
      exact ⟨List.suffix_cons _ _, by simp [faultOf, ReadError.fault?]⟩
    | text n cs =>
      rw [gatherModule] at read
      split at read
      · cases read
        exact ⟨List.suffix_cons _ _, by simp [faultOf]⟩
      · exact ⟨(ih read).1.trans (List.suffix_cons _ _), (ih read).2⟩

/-- The lines of a module block are read behind its first one. -/
theorem suffix_readModule (n : Nat) (cs : List Char) (lines : List SourceLine) :
    (readModule n cs lines).2 <:+ lines := by
  unfold readModule
  split
  rename_i text behind found
  have part : behind <:+ lines := by
    split at found
    · cases found
      exact List.suffix_rfl
    · exact (leftOf_gatherModule found).1
  split
  · exact part
  · split <;> exact part

theorem leftOf_readModule {n : Nat} {cs : List Char} {result : Except ReadError ModuleDescription}
    (read : readModule n cs lines = (result, rest)) : LeftOf (.text n cs :: lines) (faultOf result) rest := by
  have part := suffix_readModule n cs lines
  rw [read] at part
  refine leftOf_first (fun m mem => ?_) part
  unfold readModule at read
  split at read
  rename_i text behind found
  split at read
  · cases read
    split at found
    · cases found
    · exact (leftOf_gatherModule found).2 m mem
  · split at read <;> cases read
    · cases mem
    · obtain rfl := Option.some.inj mem
      rfl

/-- The lines of a class block are read in front of what is left. -/
theorem leftOf_gatherClass {rules : List LegacyRule} {className : String}
    {result : Except ReadError (List BlockLine)} (read : gatherClass rules className lines = (result, rest)) :
    ∃ front, lines = front ++ rest ∧ (∀ m ∈ faultOf result, ∃ cs, .text m.line cs ∈ front) ∧
      ∀ block, result = .ok block → ∀ line ∈ block, ∃ cs, .text line.number cs ∈ front := by
  rw [← gathers_iff] at read
  induction read with
  | ends | next => exact ⟨[], rfl, by simp [faultOf], by simp⟩
  | undecodable => exact ⟨[.undecodable], rfl, by simp [faultOf, ReadError.fault?], by simp⟩
  | @misspelled n cs =>
    exact ⟨[.text n cs], rfl, by simp [faultOf, ReadError.fault?, Malformed.atLine], by simp⟩
  | @blank n cs _ _ _ _ _ _ ih | @dropped n cs _ _ _ _ _ _ _ ih =>
    obtain ⟨front, rfl, faults, numbers⟩ := ih
    exact ⟨.text n cs :: front, rfl, fun m mem => (faults m mem).imp fun _ => List.mem_cons_of_mem _,
      fun block same line mem => (numbers block same line mem).imp fun _ => List.mem_cons_of_mem _⟩
  | @lost n cs _ _ _ _ _ _ _ _ ih =>
    obtain ⟨front, rfl, faults, -⟩ := ih
    exact ⟨.text n cs :: front, rfl, fun m mem => (faults m mem).imp fun _ => List.mem_cons_of_mem _, by simp⟩
  | @kept n cs text _ _ block _ _ _ _ ih =>
    obtain ⟨front, rfl, -, numbers⟩ := ih
    refine ⟨.text n cs :: front, rfl, by simp [faultOf], fun block' same line mem => ?_⟩
    obtain rfl := Except.ok.inj same
    rcases List.mem_cons.1 mem with rfl | mem
    · exact ⟨cs, by simp⟩
    · exact (numbers block rfl line mem).imp fun _ => List.mem_cons_of_mem _

/-- A fault of a block is that of one of its lines. -/
theorem line_of_addAll {active : Feature → Bool} {d : ClassDraft} {block : List BlockLine} {m : Malformed}
    (wrong : d.addAll active block = .error m) : ∃ line ∈ block, m.line = line.number := by
  induction block generalizing d with
  | nil => cases wrong
  | cons line more ih =>
    rw [ClassDraft.addAll] at wrong
    split at wrong
    · rename_i m' first
      cases wrong
      refine ⟨line, by simp, ?_⟩
      unfold ClassDraft.add at first
      dsimp only at first
      split at first
      · split at first <;> cases first
        rfl
      · split at first <;> cases first
        rfl
      · cases first
      · cases first
      · cases first
        rfl
    · obtain ⟨line', mem, same⟩ := ih wrong
      exact ⟨line', List.mem_cons_of_mem _ mem, same⟩

theorem leftOf_readClass {f : Format} {active : Feature → Bool} {n : Nat} {cs : List Char}
    {result : Except ReadError ClassDescription} (read : readClass f active n cs lines = (result, rest)) :
    LeftOf (.text n cs :: lines) (faultOf result) rest := by
  cases readsClass_iff.2 read with
  | badHeader => exact leftOf_first (by simp [faultOf, ReadError.fault?, Malformed.atLine]) List.suffix_rfl
  | badBlock _ gathered =>
    obtain ⟨front, rfl, faults, -⟩ := leftOf_gatherClass gathered
    exact LeftOf.of_suffix (List.suffix_cons _ _) ⟨front, rfl, faults⟩
  | badLine _ gathered wrong =>
    obtain ⟨front, rfl, -, numbers⟩ := leftOf_gatherClass gathered
    refine LeftOf.of_suffix (List.suffix_cons _ _) ⟨front, rfl, fun m' mem => ?_⟩
    obtain rfl := Option.some.inj mem
    obtain ⟨line, inBlock, same⟩ := line_of_addAll wrong
    obtain ⟨cs', inFront⟩ := numbers _ rfl line inBlock
    exact ⟨cs', same ▸ inFront⟩
  | read _ gathered =>
    obtain ⟨front, rfl, -⟩ := leftOf_gatherClass gathered
    exact leftOf_none ((List.suffix_append _ _).trans (List.suffix_cons _ _))

theorem leftOf_readBlock {f : Format} {active : Feature → Bool} {limit : Nat}
    {result : Except ReadError (Option ClassDescription)}
    (read : readBlock f active limit lines = (result, rest)) : LeftOf lines (faultOf result) rest := by
  rw [← findsBlock_iff] at read
  induction read with
  | stops | ends => exact leftOf_none List.suffix_rfl
  | undecodable => exact leftOf_none (List.suffix_cons _ _)
  | blank _ _ later => exact LeftOf.of_suffix (List.suffix_cons _ _) later
  | noBlock => exact leftOf_first (by simp [faultOf, ReadError.fault?]) List.suffix_rfl
  | badModule _ _ wrong => exact leftOf_readModule wrong
  | module _ _ found => exact leftOf_readModule found
  | hidden _ _ found _ _ later => exact LeftOf.of_suffix (leftOf_readModule found).suffix later
  | badClass _ _ wrong => exact leftOf_readClass wrong
  | class' _ _ found => exact leftOf_readClass found

/-! ### Headers -/

/-- A header has no faulty lines. -/
theorem leftOf_readHeaderLines {h h' : FileHeader} {result : Except ReadError Unit}
    (read : readHeaderLines h lines = (result, h', rest)) : rest <:+ lines ∧ faultOf result = none := by
  induction lines generalizing h with
  | nil =>
    cases read
    exact ⟨List.suffix_rfl, rfl⟩
  | cons line lines ih =>
    cases line with
    | undecodable =>
      cases read
      exact ⟨List.suffix_cons _ _, rfl⟩
    | text n cs =>
      rw [readHeaderLines] at read
      split at read
      · cases read
        exact ⟨List.suffix_cons _ _, rfl⟩
      · split at read
        · exact ⟨(ih read).1.trans (List.suffix_cons _ _), (ih read).2⟩
        · cases read
          exact ⟨List.suffix_rfl, rfl⟩

end SignatureFile
end ApiSurface
