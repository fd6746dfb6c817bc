import ApiSurface.Markup.Events
import ApiSurface.Proofs.Result
import ApiSurface.Proofs.Text.Cut
import ApiSurface.Text.Blank

/-!
Texts of whole pieces of markup. A reader of markup takes a piece from the front of a text and goes on
behind it, whatever follows. So a text that is cut between its pieces means the same with a line feed at
every cut. Main statement: what happens in lines of whole pieces is what happens in their text
(`IsBroken.events_join`).
-/

namespace ApiSurface.Markup

open ApiSurface.Text

/-! ### Pieces at the front of a text -/

/-- A tag ends at the same bracket whatever follows. -/
theorem of_cutTag {q : Option Char} {cs inside rest : List Char} (found : cutTag q cs = some (inside, rest)) :
    cs = inside ++ '>' :: rest ∧ ∀ more, cutTag q (inside ++ '>' :: more) = some (inside, more) := by
  induction cs generalizing q inside with
  | nil => cases q <;> cases found
  | cons c cs ih =>
    cases q with
    | none =>
      rw [cutTag] at found
      split at found
      · rename_i bracket
        cases found
        exact ⟨by rw [bracket]; rfl, fun more => by simp [cutTag]⟩
      · rename_i other
        obtain ⟨⟨inner, behind⟩, found, same⟩ := Option.map_eq_some_iff.1 found
        cases same
        obtain ⟨rfl, again⟩ := ih found
        exact ⟨rfl, fun more => by rw [List.cons_append, cutTag, if_neg other, again]; rfl⟩
    | some quote =>
      rw [cutTag] at found
      obtain ⟨⟨inner, behind⟩, found, same⟩ := Option.map_eq_some_iff.1 found
      cases same
      obtain ⟨rfl, again⟩ := ih found
      exact ⟨rfl, fun more => by rw [List.cons_append, cutTag, again]; rfl⟩

/-- A section ends at the same bracket whatever follows. -/
theorem of_cutSection {tail : List Char} {least : Nat} {read cs inside rest : List Char}
    (found : cutSection tail least read cs = some (inside, rest)) :
    ∃ taken, inside = read.reverse ++ taken ∧ cs = taken ++ '>' :: rest ∧
      ∀ more, cutSection tail least read (taken ++ '>' :: more) = some (inside, more) := by
  induction cs generalizing read with
  | nil => cases found
  | cons c cs ih =>
    rw [cutSection] at found
    split at found
    · rename_i ends
      cases found
      refine ⟨[], by simp, by rw [ends.1]; rfl, fun more => ?_⟩
      rw [List.nil_append, cutSection, if_pos ⟨rfl, ends.2⟩]
    · rename_i goesOn
      obtain ⟨taken, rfl, rfl, again⟩ := ih found
      refine ⟨c :: taken, by simp, rfl, fun more => ?_⟩
      rw [List.cons_append, cutSection, if_neg goesOn, again]

/-- A declaration ends at the same bracket whatever follows. -/
theorem of_cutDeclaration {depth : Nat} {cs inside rest : List Char}
    (found : cutDeclaration depth cs = some (inside, rest)) :
    cs = inside ++ '>' :: rest ∧ ∀ more, cutDeclaration depth (inside ++ '>' :: more) = some (inside, more) := by
  induction cs generalizing depth inside with
  | nil => cases found
  | cons c cs ih =>
    unfold cutDeclaration at found
    split at found
    · cases found
      exact ⟨rfl, fun more => by simp [cutDeclaration]⟩
    · obtain ⟨⟨inner, behind⟩, found, same⟩ := Option.map_eq_some_iff.1 found
      cases same
      obtain ⟨rfl, again⟩ := ih found
      exact ⟨rfl, fun more => by rw [List.cons_append]; simp [cutDeclaration, again]⟩
    · obtain ⟨⟨inner, behind⟩, found, same⟩ := Option.map_eq_some_iff.1 found
      cases same
      obtain ⟨rfl, again⟩ := ih found
      exact ⟨rfl, fun more => by rw [List.cons_append]; simp [cutDeclaration, again]⟩
    · rename_i noStart noEnd noEnd'
      obtain ⟨⟨inner, behind⟩, found, same⟩ := Option.map_eq_some_iff.1 found
      cases same
      obtain ⟨rfl, again⟩ := ih found
      refine ⟨rfl, fun more => ?_⟩
      rw [List.cons_append, cutDeclaration, again]
      · rfl
      · exact noStart
      · exact noEnd
      · exact noEnd'

theorem of_skipInstruction {cs rest : List Char} (found : skipInstruction cs = .ok rest) :
    ∃ inside, cs = inside ++ '>' :: rest ∧ ∀ more, skipInstruction (inside ++ '>' :: more) = .ok more := by
  unfold skipInstruction at found
  split at found
  · cases found
  · rename_i inside behind cut
    split at found
    · rename_i long
      cases found
      obtain ⟨_, rfl, rfl, again⟩ := of_cutSection cut
      exact ⟨inside, rfl, fun more => by simp only [skipInstruction, again, if_pos long]⟩
    · cases found

/-- The first character of a section is no bracket that ends it. -/
theorem of_cutSection_cons {tail : List Char} {least : Nat} {c : Char} {cs inside rest : List Char} (other : c ≠ '>')
    (found : cutSection tail least [] (c :: cs) = some (inside, rest)) :
    ∃ more, inside = c :: more ∧ cs = more ++ '>' :: rest ∧
      ∀ after, cutSection tail least [] (c :: (more ++ '>' :: after)) = some (c :: more, after) := by
  obtain ⟨_, rfl, whole, again⟩ := of_cutSection found
  cases inside with
  | nil => exact absurd (List.cons.inj whole).1 other
  | cons d more =>
    obtain ⟨rfl, rfl⟩ := List.cons.inj whole
    exact ⟨more, rfl, rfl, again⟩

theorem of_skipDeclaration {cs rest : List Char} (found : skipDeclaration cs = .ok rest) :
    ∃ inside, cs = inside ++ '>' :: rest ∧ ∀ more, skipDeclaration (inside ++ '>' :: more) = .ok more := by
  unfold skipDeclaration at found
  split at found
  · split at found
    · cases found
    · rename_i inside behind cut
      split at found
      · rename_i marked
        cases found
        obtain ⟨front, rfl, rfl, again⟩ := of_cutSection_cons (by decide) cut
        exact ⟨_ :: front, rfl, fun more => by simp only [List.cons_append, skipDeclaration, again, marked, if_true]⟩
      · cases found
  · split at found
    · cases found
    · rename_i inside behind cut
      split at found
      · rename_i marked
        cases found
        obtain ⟨front, rfl, rfl, again⟩ := of_cutSection_cons (by decide) cut
        exact ⟨_ :: front, rfl, fun more => by simp only [List.cons_append, skipDeclaration, again, marked, if_true]⟩
      · cases found
  · rename_i c cs noComment noSection
    split at found
    · rename_i letter
      split at found
      · cases found
      · rename_i inside behind cut
        split at found
        · rename_i marked
          cases found
          obtain ⟨whole, again⟩ := of_cutDeclaration cut
          cases inside with
          | nil =>
            rw [(List.cons.inj whole).1] at letter
            exact absurd letter (by decide)
          | cons d front =>
            obtain ⟨rfl, rfl⟩ := List.cons.inj whole
            refine ⟨c :: front, rfl, fun more => ?_⟩
            have again := again more
            rw [List.cons_append] at again ⊢
            unfold skipDeclaration
            split <;> simp_all
        · cases found
    · cases found
  · cases found

/-- What is left of a text behind a piece of markup that goes on with this text behind its first bracket. -/
def behind? : List Char → Option (List Char)
  | [] => none
  | c :: cs =>
    if c = '!' then (skipDeclaration cs).toOption
    else if c = '?' then (skipInstruction (c :: cs)).toOption
    else (cutTag none (c :: cs)).map Prod.snd

/-- A piece of markup: what stands between its brackets, the second of which ends it whatever follows. -/
def IsPiece (inside : List Char) : Prop := ∀ more, behind? (inside ++ '>' :: more) = some more

/-- What is left behind a piece of markup is what follows it. -/
theorem of_behind? {cs rest : List Char} (found : behind? cs = some rest) :
    ∃ inside, cs = inside ++ '>' :: rest ∧ IsPiece inside := by
  cases cs with
  | nil => cases found
  | cons c cs =>
    rw [behind?] at found
    split at found
    · rename_i bang
      obtain ⟨inside, rfl, again⟩ := of_skipDeclaration (toOption_eq_some_iff.1 found)
      exact ⟨c :: inside, rfl, fun more => by rw [List.cons_append, behind?, if_pos bang, again]; rfl⟩
    · rename_i noBang
      split at found
      · rename_i question
        obtain ⟨inside, whole, again⟩ := of_skipInstruction (toOption_eq_some_iff.1 found)
        cases inside with
        | nil => exact absurd ((List.cons.inj whole).1.symm.trans question) (by decide)
        | cons d inside =>
          obtain ⟨rfl, rfl⟩ := List.cons.inj whole
          exact ⟨c :: inside, rfl, fun more => by
            rw [List.cons_append, behind?, if_neg noBang, if_pos question, ← List.cons_append, again]; rfl⟩
      · rename_i noQuestion
        obtain ⟨⟨inside, _⟩, cut, rfl⟩ := Option.map_eq_some_iff.1 found
        obtain ⟨whole, again⟩ := of_cutTag cut
        cases inside with
        | nil =>
          -- an empty tag ends at a bracket that comes first
          refine ⟨[], whole, fun more => ?_⟩
          obtain ⟨rfl, rfl⟩ := List.cons.inj whole
          simp [behind?, cutTag]
        | cons d inside =>
          obtain ⟨rfl, rfl⟩ := List.cons.inj whole
          exact ⟨c :: inside, rfl, fun more => by
            rw [List.cons_append, behind?, if_neg noBang, if_neg noQuestion, ← List.cons_append, again]; rfl⟩

theorem isPiece_iff {inside : List Char} : IsPiece inside ↔ behind? (inside ++ ['>']) = some [] := by
  refine ⟨fun h => h [], fun found => ?_⟩
  obtain ⟨inside', whole, piece⟩ := of_behind? found
  rwa [List.append_cancel_right whole]

instance (inside : List Char) : Decidable (IsPiece inside) := decidable_of_iff' _ isPiece_iff

/-! ### Events -/

/-- What happens at a piece of markup inside these open elements and, given what happens inside those that are
open then, behind it. -/
def atPiece (inside : List Char) (parents : List (List Char)) (more : List (List Char) → Events) : Events :=
  if inside.head? = some '!' ∨ inside.head? = some '?' then more parents
  else if inside.head? = some '/' then
    match parents with
    | innermost :: outer =>
      if closingName (inside.drop 1) = innermost then .next (.closes (closingName (inside.drop 1))) (more outer)
      else .failed .unmatchedEnd
    | [] => .failed .unmatchedEnd
  else
    match opening inside with
    | .error fault => .failed fault
    | .ok (name, attributes, empty) =>
      .next (.opens name attributes empty) (more (if empty then parents else name :: parents))

theorem eventsFrom_plain {cs : List Char} (free : '<' ∉ cs) (limit : Nat) (parents : List (List Char)) :
    eventsFrom limit parents cs = .ended := by
  cases limit with
  | zero => rfl
  | succ limit =>
    have none : cutAt? ['<'] cs = none := cutAt?_eq_none_iff.2 fun part => free (part.subset (by simp))
    rw [eventsFrom, none]

/-- What happens behind a piece does not depend on the piece, but for the elements that are open then. -/
theorem eventsFrom_piece {before inside : List Char} (free : '<' ∉ before) (piece : IsPiece inside) (limit : Nat)
    (parents : List (List Char)) (rest : List Char) :
    eventsFrom (limit + 1) parents (before ++ '<' :: (inside ++ '>' :: rest)) =
      atPiece inside parents fun parents => eventsFrom limit parents rest := by
  have found := piece rest
  rw [eventsFrom, cutAt?_singleton free]
  cases inside with
  | nil =>
    have slash : ('>' : Char) ≠ '/' := by decide
    simp [atPiece, cutTag, slash]
    all_goals rfl
  | cons c inside =>
    rw [List.cons_append, behind?] at found
    simp only [List.cons_append, atPiece, List.head?_cons, Option.some.injEq]
    by_cases bang : c = '!'
    · rw [if_pos bang] at found
      simp only [if_pos bang, toOption_eq_some_iff.1 found, if_pos (Or.inl bang)]
    · by_cases question : c = '?'
      · rw [if_neg bang, if_pos question] at found
        simp only [if_neg bang, if_pos question, toOption_eq_some_iff.1 found, if_pos (Or.inr question)]
      · rw [if_neg bang, if_neg question] at found
        obtain ⟨⟨taken, behind⟩, cut, rfl⟩ := Option.map_eq_some_iff.1 found
        have same : c :: inside = taken := List.append_cancel_right (of_cutTag cut).1
        subst same
        simp only [if_neg bang, if_neg question, cut, if_neg (not_or.2 ⟨bang, question⟩)]
        all_goals rfl

/-- A text fails at a piece that does not end. -/
theorem exists_fault_of_behind? {after : List Char} (cut : behind? after = none) :
    ∃ fault, ∀ before, '<' ∉ before → ∀ limit parents,
      eventsFrom (limit + 1) parents (before ++ '<' :: after) = .failed fault := by
  cases after with
  | nil => exact ⟨.unclosedTag, fun before free limit parents => by rw [eventsFrom, cutAt?_singleton free]⟩
  | cons c cs =>
    rw [behind?] at cut
    split at cut
    · rename_i bang
      cases skipped : skipDeclaration cs with
      | ok rest => simp [skipped, Except.toOption] at cut
      | error fault =>
        exact ⟨fault, fun before free limit parents => by
          rw [eventsFrom, cutAt?_singleton free]; simp only [bang, if_true, skipped]⟩
    · rename_i noBang
      split at cut
      · rename_i question
        cases skipped : skipInstruction (c :: cs) with
        | ok rest => simp [skipped, Except.toOption] at cut
        | error fault =>
          exact ⟨fault, fun before free limit parents => by
            rw [eventsFrom, cutAt?_singleton free]; simp only [if_neg noBang, if_pos question, skipped]⟩
      · rename_i noQuestion
        have none : cutTag none (c :: cs) = none := Option.map_eq_none_iff.1 cut
        exact ⟨.unclosedTag, fun before free limit parents => by
          rw [eventsFrom, cutAt?_singleton free]; simp only [if_neg noBang, if_neg noQuestion, none]⟩

/-- A text has no piece in it, or a first one, which may not end. -/
theorem piece_cases (cs : List Char) : '<' ∉ cs ∨ ∃ before after, cs = before ++ '<' :: after ∧ '<' ∉ before ∧
    (behind? after = none ∨ ∃ inside rest, after = inside ++ '>' :: rest ∧ IsPiece inside) := by
  cases found : cutAt? ['<'] cs with
  | none => exact .inl fun mem => cutAt?_eq_none_iff.1 found ((List.singleton_infix_iff _ _).2 mem)
  | some halves =>
    obtain ⟨before, after⟩ := halves
    obtain ⟨rfl, free⟩ := of_cutAt?_singleton found
    refine .inr ⟨before, after, rfl, free, ?_⟩
    cases left : behind? after with
    | none => exact .inl rfl
    | some rest =>
      obtain ⟨inside, whole, piece⟩ := of_behind? left
      exact .inr ⟨inside, rest, whole, piece⟩

/-- More tags than a text has make no difference. -/
theorem eventsFrom_of_enough {a b : Nat} {parents : List (List Char)} {cs : List Char} (enough : cs.length < a)
    (enough' : cs.length < b) : eventsFrom a parents cs = eventsFrom b parents cs := by
  induction a generalizing b parents cs with
  | zero => omega
  | succ a ih =>
    obtain ⟨b, rfl⟩ : ∃ n, b = n + 1 := ⟨b - 1, by omega⟩
    rcases piece_cases cs with free | ⟨before, after, rfl, free, cut | ⟨inside, rest, rfl, piece⟩⟩
    · rw [eventsFrom_plain free, eventsFrom_plain free]
    · obtain ⟨fault, fails⟩ := exists_fault_of_behind? cut
      rw [fails before free, fails before free]
    · simp only [List.length_append, List.length_cons] at enough enough'
      rw [eventsFrom_piece free piece, eventsFrom_piece free piece]
      exact congrArg _ (funext fun parents => ih (by omega) (by omega))

/-- All that happens in a text inside these open elements. -/
def eventsIn (parents : List (List Char)) (cs : List Char) : Events := eventsFrom (cs.length + 1) parents cs

theorem eventsIn_piece {before inside : List Char} (free : '<' ∉ before) (piece : IsPiece inside)
    (parents : List (List Char)) (rest : List Char) :
    eventsIn parents (before ++ '<' :: (inside ++ '>' :: rest)) =
      atPiece inside parents fun parents => eventsIn parents rest := by
  rw [eventsIn, eventsFrom_piece free piece]
  refine congrArg _ (funext fun parents => eventsFrom_of_enough ?_ (Nat.lt_succ_self _))
  simp only [List.length_append, List.length_cons]
  omega

/-- Text between pieces is passed over. -/
theorem eventsIn_cons {c : Char} (plain : c ≠ '<') (parents : List (List Char)) (cs : List Char) :
    eventsIn parents (c :: cs) = eventsIn parents cs := by
  have later {before : List Char} (free : '<' ∉ before) : '<' ∉ c :: before := by simp [free, Ne.symm plain]
  rcases piece_cases cs with free | ⟨before, after, rfl, free, cut | ⟨inside, rest, rfl, piece⟩⟩
  · rw [eventsIn, eventsIn, eventsFrom_plain free, eventsFrom_plain (later free)]
  · obtain ⟨fault, fails⟩ := exists_fault_of_behind? cut
    exact (fails _ (later free) _ _).trans (fails _ free _ _).symm
  · rw [← List.cons_append, eventsIn_piece free piece, eventsIn_piece (later free) piece]

/-! ### Whole pieces -/

/-- A text of whole pieces of markup, with any text between them. -/
inductive IsWhole : List Char → Prop
  | nil : IsWhole []
  | text {c : Char} {cs : List Char} (plain : c ≠ '<') (more : IsWhole cs) : IsWhole (c :: cs)
  | piece {inside cs : List Char} (piece : IsPiece inside) (more : IsWhole cs) :
    IsWhole ('<' :: (inside ++ '>' :: cs))

namespace IsWhole

theorem append {a b : List Char} (ha : IsWhole a) (hb : IsWhole b) : IsWhole (a ++ b) := by
  induction ha with
  | nil => exact hb
  | text plain more ih => exact .text plain ih
  | @piece inside cs piece more ih =>
    rw [List.cons_append, List.append_assoc, List.cons_append]
    exact .piece piece ih

/-- Behind the bracket that begins a piece comes the one that ends it. -/
theorem closed {cs : List Char} (h : IsWhole cs) {a b : List Char} (split : cs = a ++ '<' :: b) : '>' ∈ b := by
  induction h generalizing a with
  | nil => simp at split
  | @text c cs plain more ih =>
    cases a with
    | nil => exact absurd (List.cons.inj split).1 plain
    | cons d a => exact ih (List.cons.inj split).2
  | @piece inside cs piece more ih =>
    cases a with
    | nil =>
      rw [← (List.cons.inj split).2]
      simp
    | cons d a =>
      -- the bracket is inside the piece, or else in the text behind it
      rcases List.append_eq_append_iff.1 (List.cons.inj split).2 with ⟨front, rfl, tail⟩ | ⟨back, rfl, tail⟩
      · cases front with
        | nil => simp at tail
        | cons e front => exact ih (List.cons.inj tail).2
      · cases back with
        | nil => simp at tail
        | cons e back =>
          rw [(List.cons.inj tail).2]
          simp

/-- Whether a text of at most this length is made of whole pieces. -/
def within : Nat → List Char → Bool
  | _, [] => true
  | 0, _ :: _ => false
  | limit + 1, c :: cs =>
    if c = '<' then (behind? cs).any (within limit) else within limit cs

theorem within_iff {limit : Nat} {cs : List Char} (enough : cs.length ≤ limit) : within limit cs ↔ IsWhole cs := by
  induction limit generalizing cs with
  | zero =>
    obtain rfl := List.length_eq_zero_iff.1 (Nat.le_zero.1 enough)
    exact ⟨fun _ => .nil, fun _ => rfl⟩
  | succ limit ih =>
    cases cs with
    | nil => exact ⟨fun _ => .nil, fun _ => rfl⟩
    | cons c cs =>
      rw [List.length_cons] at enough
      rw [within]
      split
      · rename_i bracket
        subst bracket
        constructor
        · intro all
          obtain ⟨rest, left, more⟩ := (Option.any_eq_true _ _).1 all
          obtain ⟨inside, rfl, piece⟩ := of_behind? left
          rw [List.length_append, List.length_cons] at enough
          exact .piece piece ((ih (by omega)).1 more)
        · rintro (_ | plain | ⟨piece, more⟩)
          · exact absurd rfl plain
          · rw [List.length_append, List.length_cons] at enough
            rw [piece]
            exact (ih (by omega)).2 more
      · rename_i plain
        rw [ih (by omega)]
        exact ⟨.text plain, fun h => by cases h with
          | text _ more => exact more
          | piece => exact absurd rfl plain⟩

instance (cs : List Char) : Decidable (IsWhole cs) := decidable_of_iff _ (within_iff (Nat.le_refl cs.length))

/-- Text behind whole pieces is passed over. -/
theorem eventsIn_append_cons {front : List Char} (h : IsWhole front) {c : Char} (plain : c ≠ '<')
    (parents : List (List Char)) (back : List Char) :
    eventsIn parents (front ++ c :: back) = eventsIn parents (front ++ back) := by
  induction h generalizing parents with
  | nil => exact eventsIn_cons plain parents back
  | text other more ih => rw [List.cons_append, List.cons_append, eventsIn_cons other, eventsIn_cons other, ih]
  | @piece inside cs piece more ih =>
    have first (tail : List Char) := @eventsIn_piece [] inside (by simp) piece parents tail
    simp only [List.nil_append] at first
    simp only [List.cons_append, List.append_assoc, first, ih]

/-- So is any text between pieces. -/
theorem eventsIn_append_append {front : List Char} (h : IsWhole front) {between : List Char} (free : '<' ∉ between)
    (parents : List (List Char)) (back : List Char) :
    eventsIn parents (front ++ (between ++ back)) = eventsIn parents (front ++ back) := by
  induction between with
  | nil => rfl
  | cons c between ih =>
    obtain ⟨plain, later⟩ := List.ne_and_not_mem_of_not_mem_cons free
    rw [List.cons_append, h.eventsIn_append_cons plain.symm, ih later]

end IsWhole

/-! ### Lines -/

/-- A text in lines of whole pieces of markup. The text may have blanks where a line ends, or nothing. -/
inductive IsBroken : List Char → List (List Char) → Prop
  | nil : IsBroken [] []
  | line {line blanks text : List Char} {lines : List (List Char)} (whole : IsWhole line)
    (between : allBlank blanks) (more : IsBroken text lines) : IsBroken (line ++ (blanks ++ text)) (line :: lines)

/-- Blanks are no bracket. -/
theorem notMem_of_allBlank {blanks : List Char} (between : allBlank blanks) {c : Char} (other : isBlank c = false) :
    c ∉ blanks := by
  intro mem
  rw [List.all_eq_true.1 between c mem] at other
  cases other

theorem isWhole_of_allBlank {blanks : List Char} (between : allBlank blanks) : IsWhole blanks := by
  induction blanks with
  | nil => exact .nil
  | cons c blanks ih =>
    have free := notMem_of_allBlank between (c := '<') (by decide)
    rw [allBlank, List.all_cons, Bool.and_eq_true] at between
    exact .text (List.ne_and_not_mem_of_not_mem_cons free).1.symm (ih between.2)

namespace IsBroken

/-- A text that is cut between its pieces. -/
theorem of_flatten {lines : List (List Char)} (each : ∀ line ∈ lines, IsWhole line) : IsBroken lines.flatten lines := by
  induction lines with
  | nil => exact .nil
  | cons line lines ih =>
    exact @IsBroken.line line [] _ _ (each line (by simp)) rfl (ih fun l mem => each l (by simp [mem]))

/-- Every line is somewhere in the text, behind whole pieces. -/
theorem split {before after : List (List Char)} {line text : List Char}
    (h : IsBroken text (before ++ line :: after)) : ∃ front blanks back,
      text = front ++ (line ++ (blanks ++ back)) ∧ IsWhole front ∧ IsWhole line ∧ allBlank blanks ∧
        IsBroken back after := by
  induction before generalizing text with
  | nil =>
    cases h with
    | line whole between more => exact ⟨[], _, _, rfl, .nil, whole, between, more⟩
  | cons first before ih =>
    cases h with
    | @line _ blanks _ _ whole between more =>
      obtain ⟨front, gap, back, rfl, begins, found⟩ := ih more
      refine ⟨first ++ (blanks ++ front), gap, back, by simp, ?_, found⟩
      exact whole.append ((isWhole_of_allBlank between).append begins)

/-- What happens in lines of whole pieces is what happens in their text. -/
theorem events_join {text : List Char} {lines : List (List Char)} (h : IsBroken text lines) :
    events (join ['\n'] lines) = events text := by
  suffices behind : ∀ front, IsWhole front → eventsIn [] (front ++ join ['\n'] lines) =
      eventsIn [] (front ++ text) from behind [] .nil
  induction h with
  | nil => exact fun front _ => rfl
  | @line line blanks text lines whole between more ih =>
    intro front begins
    have further := begins.append whole
    have free := notMem_of_allBlank between (c := '<') (by decide)
    have rest := further.eventsIn_append_append free [] text
    rw [← List.append_assoc, rest, ← ih _ further]
    cases lines with
    | nil => simp
    | cons second lines =>
      rw [join_cons_cons, List.append_assoc line, List.singleton_append, ← List.append_assoc,
        further.eventsIn_append_cons (c := '\n') (by decide)]

end IsBroken

end ApiSurface.Markup
