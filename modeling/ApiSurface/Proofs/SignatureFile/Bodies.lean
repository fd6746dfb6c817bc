import ApiSurface.Proofs.SignatureFile.Faults
import ApiSurface.Proofs.SignatureFile.Independent

/-!
What the body of a file gives, as equations: a blank line gives nothing, a block gives what its own lines say and
then comes what the lines behind it give, and a class is what its lines make of it one by one. Main statements: the
lines of a class are read one by one (`addAll_gatherClass`), each block of a body adds what it says
(`given_blank`, `given_module`, `given_class`), and what can be read is such a body (`isBody_of_given`).
-/

namespace ApiSurface

open ApiSurface.Text ApiSurface.SignatureFile

namespace SignatureFile

variable {f : Format} {active : Feature → Bool} {h : FileHeader} {d e : ClassDraft} {first line : List Char}
  {block body ls : List (List Char)} {tail : List SourceLine} {m : ModuleDescription} {cs : List ClassDescription}

/-! ### The lines of a class one by one -/

/-- The draft with what one more line of the file says. -/
def ClassDraft.read? (f : Format) (active : Feature → Bool) (d : ClassDraft) (line : List Char) : Option ClassDraft :=
  if allBlank line then some d
  else
    match LegacyRule.decodeAll d.description.name f.rules line with
    | .error _ => none
    | .ok none => some d
    | .ok (some text) => (d.add active ⟨0, LineKind.of line, text⟩).toOption

/-- A class of which the first line was read. -/
def ClassDraft.start (header : ClassHeader) : ClassDraft :=
  ⟨{ ClassDescription.named header.name header.modifiers with typeParameters := header.typeParameters }, none⟩

/-- The class whose block begins with this line and goes on with these. -/
def class? (f : Format) (active : Feature → Bool) (first : List Char) (block : List (List Char)) :
    Option ClassDescription :=
  (Line.parseClassHeader first).toOption.bind fun header =>
    (block.foldlM (ClassDraft.read? f active) (ClassDraft.start header)).map (·.description)

theorem toOption_add (active : Feature → Bool) (d : ClassDraft) (n k : Nat) (kind : LineKind) (text : List Char) :
    (d.add active ⟨n, kind, text⟩).toOption = (d.add active ⟨k, kind, text⟩).toOption :=
  toOption_eq_iff.2 fun _ => ⟨fun read => add_of_sayTheSame read k, fun read => add_of_sayTheSame read n⟩

theorem name_of_read? (read : d.read? f active line = some e) : e.description.name = d.description.name := by
  unfold ClassDraft.read? at read
  split at read
  · cases read
    rfl
  · split at read
    · cases read
    · cases read
      rfl
    · rename_i text _
      cases added : d.add active ⟨0, LineKind.of line, text⟩ with
      | error m =>
        rw [added] at read
        cases read
      | ok d' =>
        rw [added] at read
        cases read
        exact name_of_add added

/-- The lines of a block of a class are read one by one. -/
theorem addAll_gatherClass (f : Format) (active : Feature → Bool) (d : ClassDraft)
    (inside : ∀ line ∈ block, ¬BeginsBlock line) (next : AtBlock tail) (n : Nat) :
    ((gatherClass f.rules d.description.name (numbered n block ++ tail)).1.toOption.bind
      fun lines => (d.addAll active lines).toOption) = block.foldlM (ClassDraft.read? f active) d := by
  induction block generalizing n d with
  | nil =>
    rw [numbered_nil, List.nil_append, gatherClass_atBlock next]
    rfl
  | cons line block ih =>
    -- what the lines behind this one give, for a draft of the same class
    have later {d' : ClassDraft} (same : d'.description.name = d.description.name)
        {result : Except ReadError (List BlockLine)} {rest : List SourceLine}
        (more : Gathers f.rules d.description.name (numbered (n + 1) block ++ tail) result rest) :
        (result.toOption.bind fun lines => (d'.addAll active lines).toOption) =
          block.foldlM (ClassDraft.read? f active) d' := by
      have run := ih d' (fun l mem => inside l (by simp [mem])) (n + 1)
      rwa [same, gathers_iff.1 more] at run
    rw [numbered_cons, List.cons_append, List.foldlM_cons]
    cases gathered : gatherClass f.rules d.description.name (.text n line :: (numbered (n + 1) block ++ tail)) with
    | mk result rest =>
      cases gathers_iff.2 gathered with
      | next starts => exact absurd starts (inside line (by simp))
      | misspelled _ filled wrong => simp [ClassDraft.read?, filled, wrong, Except.toOption]
      | blank _ blank more => simpa [ClassDraft.read?, blank] using later rfl more
      | dropped _ filled decoded more => simpa [ClassDraft.read?, filled, decoded] using later rfl more
      | @kept _ _ text _ _ _ _ filled decoded more | @lost _ _ text _ _ _ _ filled decoded more =>
        have step : d.read? f active line = (d.add active ⟨n, LineKind.of line, text⟩).toOption := by
          simp [ClassDraft.read?, filled, decoded, toOption_add active d 0 n]
        rw [step]
        cases first : d.add active ⟨n, LineKind.of line, text⟩ with
        | error m => simp [ClassDraft.addAll, first, Except.toOption]
        | ok d' => simpa [ClassDraft.addAll, first, Except.toOption] using later (name_of_add first) more

/-- What is left behind the block of a class are the lines behind it. -/
theorem gatherClass_left {rules : List LegacyRule} {className : String} {lines : List BlockLine}
    (inside : ∀ line ∈ block, ¬BeginsBlock line) (next : AtBlock tail) {n : Nat} {rest : List SourceLine}
    (gathered : gatherClass rules className (numbered n block ++ tail) = (.ok lines, rest)) : rest = tail := by
  induction block generalizing n lines with
  | nil =>
    rw [numbered_nil, List.nil_append, gatherClass_atBlock next] at gathered
    cases gathered
    rfl
  | cons line block ih =>
    have other : ¬(LineKind.of line = .classHeader ∨ LineKind.of line = .moduleBlock) := inside line (by simp)
    have later {lines : List BlockLine} (more : Gathers rules className (numbered (n + 1) block ++ tail) (.ok lines) rest) :
        rest = tail := ih (fun l mem => inside l (by simp [mem])) (gathers_iff.1 more)
    rw [numbered_cons, List.cons_append, ← gathers_iff] at gathered
    cases gathered with
    | next starts => exact absurd starts other
    | blank _ _ more | dropped _ _ _ more | kept _ _ _ more => exact later more

/-- A class is read from the lines of its block, up to what is behind them. -/
theorem readClass_block (f : Format) (active : Feature → Bool) (first : List Char)
    (inside : ∀ line ∈ block, ¬BeginsBlock line) (next : AtBlock tail) (n k : Nat) :
    (readClass f active n first (numbered k block ++ tail)).1.toOption = class? f active first block ∧
      ∀ c rest, readClass f active n first (numbered k block ++ tail) = (.ok c, rest) → rest = tail := by
  have run (header : ClassHeader) := addAll_gatherClass f active (.start header) inside next k
  have name (header : ClassHeader) : (ClassDraft.start header).description.name = header.name := rfl
  cases read : readClass f active n first (numbered k block ++ tail) with
  | mk result rest =>
    cases readsClass_iff.2 read with
    | badHeader wrong => simp [class?, wrong, Except.toOption]
    | badBlock parsed gathered => simp [class?, parsed, ← run, name, gathered, Except.toOption]
    | badLine parsed gathered wrong =>
      rw [← ClassDraft.start] at wrong
      simp [class?, parsed, ← run, name, gathered, wrong, Except.toOption]
    | read parsed gathered added =>
      have left := gatherClass_left inside next gathered
      rw [← ClassDraft.start] at added
      simp [class?, parsed, ← run, name, gathered, added, left, Except.toOption]

/-! ### Modules -/

/-- A module block that is well formed: its lines go up to the first end tag, and they describe this module. -/
structure IsModule (first : List Char) (body : List (List Char)) (m : ModuleDescription) : Prop where
  kind : LineKind.of first = .moduleBlock
  whole : IsModuleBody first body body
  described : ModuleDescription.ofMarkup (String.ofList (joined first body)) = .ok m

/-- A module is read from its block, whatever is behind it. -/
theorem IsModule.read (module : IsModule first body m) (n k : Nat) (tail : List SourceLine) :
    readModule n first (numbered k body ++ tail) = (.ok m, tail) := by
  obtain ⟨-, whole, described⟩ := module
  unfold readModule
  unfold IsModuleBody at whole
  by_cases alone : isWholeModule first
  · rw [if_pos alone] at whole
    subst whole
    have same : joined first [] = first := by simp [joined]
    rw [same] at described
    simp [alone, described]
  · rw [if_neg alone] at whole
    obtain ⟨inner, last, rfl, -, closes, noEnd⟩ := whole
    have gathered : gatherModule n first (numbered k (inner ++ [last]) ++ tail) =
        (.ok (joined first (inner ++ [last])), tail) := gatherModule_append noEnd closes n k first tail
    simp [alone, gathered, described]

/-- A module that was read has a block. -/
theorem exists_isModule_of_readModule {n k : Nat} {rest : List SourceLine} (kind : LineKind.of first = .moduleBlock)
    (read : readModule n first (numbered k ls) = (.ok m, rest)) :
    ∃ body behind, ls = body ++ behind ∧ IsModule first body m := by
  unfold readModule at read
  by_cases alone : isWholeModule first
  · simp only [alone, if_true] at read
    split at read
    · rename_i described
      cases read
      have same : joined first [] = first := by simp [joined]
      exact ⟨[], ls, rfl, kind, by rw [IsModuleBody, if_pos alone], by rw [same]; exact described⟩
    · cases read
  · simp only [alone, Bool.false_eq_true, if_false] at read
    cases gathered : gatherModule n first (numbered k ls) with
    | mk result behind =>
      rw [gathered] at read
      cases result with
      | error e => cases read
      | ok text =>
        obtain ⟨inner, last, further, rfl, rfl, closes, noEnd⟩ := gatherModule_ok gathered
        dsimp only at read
        split at read
        · rename_i described
          cases read
          refine ⟨inner ++ [last], further, by simp, kind, ?_, described⟩
          rw [IsModuleBody, if_neg alone]
          exact ⟨inner, last, rfl, List.prefix_rfl, closes, noEnd⟩
        · cases read

/-! ### The lines of a body -/

/-- What a reader behind this header gives of the lines that are left, unless something is wrong with them. -/
def given (f : Format) (h : FileHeader) (ls : List (List Char)) : Option (List ClassDescription) :=
  ((atLines f h (numbered 1 ls)).readUpTo (ls.length + 1)).1.toOption

/-- The lines give the same with any numbers. -/
theorem toOption_readUpTo {n limit : Nat} (enough : ls.length < limit) :
    ((atLines f h (numbered n ls)).readUpTo limit).1.toOption = given f h ls := by
  rw [given, toOption_eq_iff]
  intro cs
  constructor
  · intro read
    exact readUpTo_alone enough (Prod.ext read rfl) 1 (Nat.lt_succ_self _)
  · intro read
    exact readUpTo_alone (Nat.lt_succ_self _) (Prod.ext read rfl) n enough

@[simp] theorem given_nil : given f h [] = some [] := rfl

/-- Lines with one next block give the same. -/
theorem given_of_readNext {n k : Nat} {ls' : List (List Char)}
    (same : (atLines f h (numbered n ls)).readNext = (atLines f h (numbered k ls')).readNext) :
    given f h ls = given f h ls' := by
  have few : ls.length < ls.length + ls'.length + 1 := by omega
  have few' : ls'.length < ls.length + ls'.length + 1 := by omega
  rw [← toOption_readUpTo few, readUpTo_congr same, toOption_readUpTo few']

/-- Behind a block there is what the lines behind it give. -/
theorem given_of_block {n k : Nat} {ls' : List (List Char)} {c : ClassDescription}
    (next : (atLines f h (numbered n ls)).readNext = (.ok (some c), atLines f h (numbered k ls')))
    (shorter : ls'.length < ls.length) : given f h ls = (given f h ls').map (c :: ·) := by
  rw [← toOption_readUpTo (Nat.lt_succ_self ls.length), Reader.readUpTo, next, ← toOption_readUpTo shorter]
  dsimp only
  cases (atLines f h (numbered k ls')).readUpTo ls.length with
  | mk result rest => cases result <;> rfl

theorem given_of_error {n : Nat} {e : ReadError} {r : Reader}
    (next : (atLines f h (numbered n ls)).readNext = (.error e, r)) : given f h ls = none := by
  rw [← toOption_readUpTo (Nat.lt_succ_self ls.length), Reader.readUpTo, next]
  rfl

theorem given_blank (blank : allBlank line) : given f h (line :: ls) = given f h ls := by
  have same : (atLines f h (numbered 1 (line :: ls))).readNext = (atLines f h (numbered 2 ls)).readNext := by
    rw [readNext_atLines, numbered_cons, nextBlock_blank blank, ← readNext_atLines]
  exact given_of_readNext same

/-- A module is given in front of what is behind it, or left out. -/
theorem given_module (module : IsModule first body m) :
    given f h (first :: (body ++ ls)) =
      if (atLines f h []).hasFeature .moduleInfo then (given f h ls).map (.ofModule m :: ·) else given f h ls := by
  have read := module.read 1 2 (numbered (2 + body.length) ls)
  rw [← numbered_append] at read
  by_cases on : (atLines f h []).hasFeature .moduleInfo
  · have next : (atLines f h (numbered 1 (first :: (body ++ ls)))).readNext =
        (.ok (some (.ofModule m)), atLines f h (numbered (2 + body.length) ls)) := by
      rw [readNext_atLines, numbered_cons, nextBlock_module module.kind, read]
      simp [on]
    rw [if_pos on, given_of_block next (by simp)]
  · have same : (atLines f h (numbered 1 (first :: (body ++ ls)))).readNext =
        (atLines f h (numbered (2 + body.length) ls)).readNext := by
      rw [readNext_atLines, numbered_cons, nextBlock_module module.kind, read, readNext_atLines]
      simp [on]
    rw [if_neg on, given_of_readNext same]

/-- There are no lines, or the first one begins a block. -/
def StartsAtBlock (ls : List (List Char)) : Prop := ∀ line ∈ ls.head?, BeginsBlock line

theorem StartsAtBlock.atBlock (start : StartsAtBlock ls) (n : Nat) : AtBlock (numbered n ls) := by
  cases ls with
  | nil => trivial
  | cons line ls => exact start line (by simp)

/-- A class is given in front of what is behind it. -/
theorem given_class (kind : LineKind.of first = .classHeader) (inside : ∀ line ∈ block, ¬BeginsBlock line)
    (start : StartsAtBlock ls) :
    given f h (first :: (block ++ ls)) = (class? f (atLines f h []).hasFeature first block).bind
      fun c => (given f h ls).map (c :: ·) := by
  obtain ⟨same, left⟩ := readClass_block f (atLines f h []).hasFeature first inside
    (start.atBlock (2 + block.length)) 1 2
  rw [← numbered_append] at same left
  rw [← same]
  cases read : readClass f (atLines f h []).hasFeature 1 first (numbered 2 (block ++ ls)) with
  | mk result rest =>
    cases result with
    | error e =>
      have next : (atLines f h (numbered 1 (first :: (block ++ ls)))).readNext = (.error e, atLines f h rest) := by
        rw [readNext_atLines, numbered_cons, nextBlock_class kind, read]
        rfl
      exact given_of_error next
    | ok c =>
      obtain rfl := left c rest read
      have next : (atLines f h (numbered 1 (first :: (block ++ ls)))).readNext =
          (.ok (some c), atLines f h (numbered (2 + block.length) ls)) := by
        rw [readNext_atLines, numbered_cons, nextBlock_class kind, read]
        rfl
      exact given_of_block next (by simp)

theorem given_other (filled : allBlank line = false) (other : ¬BeginsBlock line) :
    given f h (line :: ls) = none := by
  have kinds : LineKind.of line ≠ .moduleBlock ∧ LineKind.of line ≠ .classHeader :=
    ⟨fun kind => other (.inr kind), fun kind => other (.inl kind)⟩
  obtain ⟨e, failed⟩ : ∃ e, nextBlock f (atLines f h []).hasFeature (.text 1 line :: numbered 2 ls) =
      (.error e, numbered 2 ls) := nextBlock_other filled kinds _
  have next : (atLines f h (numbered 1 (line :: ls))).readNext = (.error e, atLines f h (numbered 2 ls)) := by
    rw [readNext_atLines, numbered_cons, failed]
  exact given_of_error next

/-! ### Bodies -/

/-- Lines that are blank or belong to blocks. -/
inductive IsBody : List (List Char) → Prop
  | nil : IsBody []
  | blank {line : List Char} {ls : List (List Char)} (blank : allBlank line) (rest : IsBody ls) : IsBody (line :: ls)
  | module {first : List Char} {body ls : List (List Char)} {m : ModuleDescription} (module : IsModule first body m)
    (rest : IsBody ls) : IsBody (first :: (body ++ ls))
  | class {first : List Char} {block ls : List (List Char)} (kind : LineKind.of first = .classHeader)
    (inside : ∀ line ∈ block, ¬BeginsBlock line) (start : StartsAtBlock ls) (rest : IsBody ls) :
    IsBody (first :: (block ++ ls))

/-- Lines go on up to the next that begins a block. -/
theorem exists_startsAtBlock (ls : List (List Char)) :
    ∃ block rest, ls = block ++ rest ∧ (∀ line ∈ block, ¬BeginsBlock line) ∧ StartsAtBlock rest := by
  induction ls with
  | nil => exact ⟨[], [], rfl, by simp, by simp [StartsAtBlock]⟩
  | cons line ls ih =>
    by_cases begins : BeginsBlock line
    · refine ⟨[], line :: ls, rfl, by simp, fun l mem => ?_⟩
      obtain rfl : line = l := by simpa using mem
      exact begins
    · obtain ⟨block, rest, rfl, inside, start⟩ := ih
      exact ⟨line :: block, rest, rfl, List.forall_mem_cons.2 ⟨begins, inside⟩, start⟩

/-- What can be read to its end is a body. -/
theorem isBody_of_given (read : given f h ls = some cs) : IsBody ls := by
  induction size : ls.length using Nat.strong_induction_on generalizing ls cs with
  | _ size ih =>
    subst size
    cases ls with
    | nil => exact .nil
    | cons line ls =>
      by_cases blank : allBlank line
      · rw [given_blank blank] at read
        exact .blank blank (ih _ (by simp) read rfl)
      · by_cases begins : BeginsBlock line
        · rcases begins with isClass | isModule
          · obtain ⟨block, rest, rfl, inside, start⟩ := exists_startsAtBlock ls
            rw [given_class isClass inside start] at read
            obtain ⟨c, -, read⟩ := Option.bind_eq_some_iff.1 read
            obtain ⟨more, read, -⟩ := Option.map_eq_some_iff.1 read
            exact .class isClass inside start (ih _ (by simp) read rfl)
          · cases module : readModule 1 line (numbered 2 ls) with
            | mk result behind =>
              cases result with
              | error e =>
                have next : (atLines f h (numbered 1 (line :: ls))).readNext = (.error e, atLines f h behind) := by
                  rw [readNext_atLines, numbered_cons, nextBlock_module isModule, module]
                rw [given_of_error next] at read
                cases read
              | ok m =>
                obtain ⟨body, rest, rfl, isModule⟩ := exists_isModule_of_readModule isModule module
                rw [given_module isModule] at read
                split at read
                · obtain ⟨more, read, -⟩ := Option.map_eq_some_iff.1 read
                  exact .module isModule (ih _ (by simp) read rfl)
                · exact .module isModule (ih _ (by simp) read rfl)
        · rw [given_other (by simpa using blank) begins] at read
          cases read

end SignatureFile
end ApiSurface
