import ApiSurface.Proofs.Literal.Enclosed
import ApiSurface.Proofs.Text.Passing

/-!
What it means that brackets and literals balance, without a scanner. A text is balanced when it consists of plain
characters, of whole literals, and of pairs of brackets with balanced text between them; brackets stay open behind a
text when balanced texts stand before and behind each of them. Main statements: the walk through nestings finds
these brackets and no others (`Nesting.through_eq_some_iff`), a scan ends at the first stop behind a balanced text or
with the fault that stands before every stop (`scanned_iff`), and the bracket that closes another one is the one
behind a balanced text (`throughClose_eq_ok_iff`).
-/

namespace ApiSurface.Text

open Nesting

/-! ### Balanced texts -/

/-- The characters that begin and end literals. -/
def IsQuote (c : Char) : Prop := c = '"' ∨ c = '\''

/-- The inside of a literal: no quote of its own, but a backslash takes any character along. -/
inductive LiteralBody (quote : Char) : List Char → Prop
  | nil : LiteralBody quote []
  | char {c body} (noSlash : c ≠ '\\') (noQuote : c ≠ quote) (more : LiteralBody quote body) :
    LiteralBody quote (c :: body)
  | escape {c body} (more : LiteralBody quote body) : LiteralBody quote ('\\' :: c :: body)

/-- A text in which every literal has its end, and every bracket that counts its partner. -/
inductive Balanced (opens : List Char) : List Char → Prop
  | nil : Balanced opens []
  | plain {c t} (noQuote : ¬IsQuote c) (noOpener : c ∉ opens) (noCloser : c ∉ opens.map closerOf)
    (more : Balanced opens t) : Balanced opens (c :: t)
  | literal {quote body t} (isQuote : IsQuote quote) (inside : LiteralBody quote body) (more : Balanced opens t) :
    Balanced opens (quote :: body ++ quote :: t)
  | pair {bracket inner t} (opener : bracket ∈ opens) (inside : Balanced opens inner) (more : Balanced opens t) :
    Balanced opens (bracket :: inner ++ closerOf bracket :: t)

/-- Behind the text these brackets are open, the innermost first, and no literal is. -/
inductive OpenAfter (opens : List Char) : List Char → List Char → Prop
  | top {t} (balanced : Balanced opens t) : OpenAfter opens [] t
  | inside {bracket stack front t} (around : OpenAfter opens stack front) (opener : bracket ∈ opens)
    (balanced : Balanced opens t) : OpenAfter opens (bracket :: stack) (front ++ bracket :: t)

variable {opens stops stack t : List Char} {c quote bracket : Char}

theorem LiteralBody.append {a b : List Char} (ha : LiteralBody quote a) (hb : LiteralBody quote b) :
    LiteralBody quote (a ++ b) := by
  induction ha with
  | nil => exact hb
  | char noSlash noQuote more ih => exact .char noSlash noQuote ih
  | escape more ih => exact .escape ih

theorem Balanced.append {a b : List Char} (ha : Balanced opens a) (hb : Balanced opens b) :
    Balanced opens (a ++ b) := by
  induction ha with
  | nil => exact hb
  | plain noQuote noOpener noCloser more ih => exact .plain noQuote noOpener noCloser ih
  | literal isQuote inside more ih => simpa using Balanced.literal isQuote inside ih
  | pair opener inside more _ ih => simpa using Balanced.pair opener inside ih

/-- Balanced text changes nothing of what is open. -/
theorem OpenAfter.append {a b : List Char} (ha : OpenAfter opens stack a) (hb : Balanced opens b) :
    OpenAfter opens stack (a ++ b) := by
  cases ha with
  | top balanced => exact .top (balanced.append hb)
  | inside around opener balanced => simpa using OpenAfter.inside around opener (balanced.append hb)

theorem openAfter_nil_iff : OpenAfter opens [] t ↔ Balanced opens t :=
  ⟨fun h => by cases h with | top balanced => exact balanced, .top⟩

/-! ### Single steps -/

theorem IsQuote.ne_slash (h : IsQuote quote) : quote ≠ '\\' := by
  rcases h with rfl | rfl <;> decide

theorem closerOf_mem (bracket : Char) : closerOf bracket ∈ [')', ']', '>'] := by
  unfold closerOf
  split_ifs <;> decide

/-- What counts as a closing bracket. -/
theorem mem_map_closerOf : c ∈ opens.map closerOf ↔ c ∈ [')', ']', '>'] ∧ opens.any (closerOf · == c) := by
  simp only [List.mem_map, List.any_eq_true, beq_iff_eq]
  refine ⟨?_, fun h => h.2⟩
  rintro ⟨bracket, mem, rfl⟩
  exact ⟨closerOf_mem bracket, bracket, mem, rfl⟩

/-- No bracket that opens is a quote. -/
theorem noQuote_of_opener (sub : opens ⊆ brackets) (opener : bracket ∈ opens) : ¬IsQuote bracket := by
  have all : ∀ b ∈ brackets, ¬(b = '"' ∨ b = '\'') := by decide
  exact all bracket (sub opener)

/-- No bracket that closes is a quote, or opens. -/
theorem apart_of_closer (sub : opens ⊆ brackets) (closer : c ∈ opens.map closerOf) :
    ¬IsQuote c ∧ c ∉ opens := by
  have all : ∀ b ∈ [')', ']', '>'], ¬(b = '"' ∨ b = '\'') ∧ b ∉ brackets := by decide
  obtain ⟨noQuote, noBracket⟩ := all c (mem_map_closerOf.1 closer).1
  exact ⟨noQuote, fun mem => noBracket (sub mem)⟩

namespace Nesting

theorem step_plain (noQuote : ¬IsQuote c) (noOpener : c ∉ opens) (noCloser : c ∉ opens.map closerOf) :
    (⟨stack, .outside⟩ : Nesting).step opens c = .ok ⟨stack, .outside⟩ := by
  rw [mem_map_closerOf] at noCloser
  rw [IsQuote] at noQuote
  simp only [step, noQuote, noOpener, noCloser, if_false]

theorem step_quote (isQuote : IsQuote c) :
    (⟨stack, .outside⟩ : Nesting).step opens c = .ok ⟨stack, .inside c⟩ := by
  rw [IsQuote] at isQuote
  simp only [step, isQuote, if_true]

theorem step_endQuote (isQuote : IsQuote quote) :
    (⟨stack, .inside quote⟩ : Nesting).step opens quote = .ok ⟨stack, .outside⟩ := by
  simp only [step, isQuote.ne_slash, if_false, if_true]

theorem step_opener (sub : opens ⊆ brackets) (opener : bracket ∈ opens) :
    (⟨stack, .outside⟩ : Nesting).step opens bracket = .ok ⟨bracket :: stack, .outside⟩ := by
  have noQuote := noQuote_of_opener sub opener
  rw [IsQuote] at noQuote
  simp only [step, noQuote, opener, if_false, if_true]

theorem step_closer (sub : opens ⊆ brackets) (closer : c ∈ opens.map closerOf) :
    (⟨stack, .outside⟩ : Nesting).step opens c =
      if stack.head?.map closerOf = some c then .ok ⟨stack.tail, .outside⟩ else .error (.unbalanced c) := by
  obtain ⟨noQuote, noOpener⟩ := apart_of_closer sub closer
  rw [IsQuote] at noQuote
  cases stack <;> simp [step, noQuote, noOpener, mem_map_closerOf.1 closer]

theorem step_ownCloser (sub : opens ⊆ brackets) (opener : bracket ∈ opens) :
    (⟨bracket :: stack, .outside⟩ : Nesting).step opens (closerOf bracket) = .ok ⟨stack, .outside⟩ := by
  rw [step_closer sub (List.mem_map_of_mem opener)]
  exact if_pos rfl

/-! ### Walks -/

theorem through_cons {n m : Nesting} (h : n.step opens c = .ok m) (cs : List Char) :
    n.through opens [] (c :: cs) = m.through opens [] cs := by
  simp [through, h]

theorem through_concat {n m : Nesting} {a : List Char} (h : n.through opens [] a = some m) (c : Char) :
    n.through opens [] (a ++ [c]) = (m.step opens c).toOption := by
  rw [through_append, h, Option.bind_some, through, if_neg (by simp)]
  cases m.step opens c <;> rfl

end Nesting

/-- The inside of a literal is passed. -/
theorem LiteralBody.throughQuote?_append {body : List Char} (h : LiteralBody quote body) (rest : List Char) :
    throughQuote? quote (body ++ rest) = (throughQuote? quote rest).map (behind body) := by
  induction h with
  | nil => cases found : throughQuote? quote rest <;> simp [found, behind]
  | char noSlash noQuote more ih =>
    rw [List.cons_append, throughQuote?_cons noSlash noQuote, ih, Option.map_map]
    rfl
  | escape more ih =>
    rw [List.cons_append, List.cons_append, throughQuote?_slash, ih, Option.map_map]
    rfl

theorem LiteralBody.throughQuote?_quote {body : List Char} (h : LiteralBody quote body) (isQuote : IsQuote quote)
    (rest : List Char) : throughQuote? quote (body ++ quote :: rest) = some (body, rest) := by
  rw [h.throughQuote?_append, Text.throughQuote?_quote isQuote.ne_slash, Option.map_some, behind, List.append_nil]

/-- A literal ends at one place only. -/
theorem LiteralBody.of_throughQuote? {cs body rest : List Char}
    (h : throughQuote? quote cs = some (body, rest)) : LiteralBody quote body := by
  fun_induction throughQuote? quote cs generalizing body with
  | case1 => cases h
  | case2 c cs ih =>
    obtain ⟨found, cut, same⟩ := Option.map_eq_some_iff.1 h
    cases same
    exact .escape (ih cut)
  | case3 => cases h
  | case4 =>
    cases h
    exact .nil
  | case5 c cs _ noSlash noQuote ih =>
    obtain ⟨found, cut, same⟩ := Option.map_eq_some_iff.1 h
    cases same
    exact .char noSlash noQuote (ih cut)

/-- There is no end of the literal in a text just if none is found. -/
theorem throughQuote?_eq_none_iff (isQuote : IsQuote quote) {cs : List Char} :
    throughQuote? quote cs = none ↔ ∀ body rest, LiteralBody quote body → cs ≠ body ++ quote :: rest := by
  constructor
  · rintro none body rest inside rfl
    rw [inside.throughQuote?_quote isQuote] at none
    cases none
  · intro endless
    rw [Option.eq_none_iff_forall_ne_some]
    rintro ⟨body, rest⟩ found
    exact endless body rest (.of_throughQuote? found) (throughQuote?_append found).symm

/-- A balanced text leads back to what was open before it. -/
theorem Balanced.through (sub : opens ⊆ brackets) (h : Balanced opens t) (stack : List Char) :
    (⟨stack, .outside⟩ : Nesting).through opens [] t = some ⟨stack, .outside⟩ := by
  induction h generalizing stack with
  | nil => rfl
  | plain noQuote noOpener noCloser more ih => rw [through_cons (step_plain noQuote noOpener noCloser), ih]
  | @literal quote body t isQuote inside more ih =>
    rw [List.cons_append, through_cons (step_quote isQuote), through_append,
      through_inside stack (inside.throughQuote?_quote isQuote t), Option.bind_some,
      through_cons (step_endQuote isQuote), ih]
  | @pair bracket inner t opener inside more ihInner ih =>
    rw [List.cons_append, through_cons (step_opener sub opener), through_append, ihInner, Option.bind_some,
      through_cons (step_ownCloser sub opener), ih]

theorem OpenAfter.through (sub : opens ⊆ brackets) (h : OpenAfter opens stack t) :
    Nesting.top.through opens [] t = some ⟨stack, .outside⟩ := by
  induction h with
  | top balanced => exact balanced.through sub []
  | inside around opener balanced ih =>
    rw [through_append, ih, Option.bind_some, through_cons (step_opener sub opener), balanced.through sub]

/-- What the nesting says is open behind the text. -/
def Leaves (opens : List Char) (n : Nesting) (t : List Char) : Prop :=
  match n.literal with
  | .outside => OpenAfter opens n.stack t
  | .inside quote => ∃ front body, t = front ++ quote :: body ∧ OpenAfter opens n.stack front ∧ IsQuote quote ∧
      LiteralBody quote body
  | .escaped quote => ∃ front body, t = front ++ quote :: body ++ ['\\'] ∧ OpenAfter opens n.stack front ∧
      IsQuote quote ∧ LiteralBody quote body

/-- One more character, and what is open behind it. -/
theorem Leaves.step {n m : Nesting} (h : Leaves opens n t) (stepped : n.step opens c = .ok m) :
    Leaves opens m (t ++ [c]) := by
  obtain ⟨stack, literal⟩ := n
  cases literal with
  | escaped quote =>
    obtain ⟨front, body, rfl, before, isQuote, inside⟩ := h
    cases stepped
    exact ⟨front, body ++ ['\\', c], by simp, before, isQuote, inside.append (.escape .nil)⟩
  | inside quote =>
    obtain ⟨front, body, rfl, before, isQuote, inside⟩ := h
    simp only [Nesting.step] at stepped
    split_ifs at stepped with slash same
    · cases stepped
      exact ⟨front, body, by simp [slash], before, isQuote, inside⟩
    · cases stepped
      subst same
      have literal := before.append (.literal isQuote inside .nil)
      simpa [Leaves] using literal
    · cases stepped
      exact ⟨front, body ++ [c], by simp, before, isQuote, inside.append (.char slash same .nil)⟩
  | outside =>
    have before : OpenAfter opens stack t := h
    simp only [Nesting.step, ← mem_map_closerOf] at stepped
    split_ifs at stepped with isQuote isOpener isCloser
    · cases stepped
      exact ⟨t, [], rfl, before, isQuote, .nil⟩
    · cases stepped
      exact .inside before isOpener .nil
    · cases before with
      | top balanced => cases stepped
      | @inside bracket stack front t around opener balanced =>
        simp only at stepped
        split_ifs at stepped with same
        cases stepped
        subst same
        have pair := around.append (.pair opener balanced .nil)
        simpa [Leaves] using pair
    · cases stepped
      exact before.append (.plain isQuote isOpener isCloser .nil)

/-- What is open behind a walk. -/
theorem leaves_of_through {n : Nesting} (h : top.through opens [] t = some n) : Leaves opens n t := by
  induction t using List.reverseRecOn generalizing n with
  | nil =>
    cases h
    exact .top .nil
  | append_singleton t c ih =>
    obtain ⟨m, front, -⟩ := exists_of_through_append h
    rw [through_concat front, toOption_eq_some_iff] at h
    exact (ih front).step h

/-- **The walk through a text finds the brackets that are open behind it.** -/
theorem Nesting.through_eq_some_iff (sub : opens ⊆ brackets) :
    top.through opens [] t = some ⟨stack, .outside⟩ ↔ OpenAfter opens stack t :=
  ⟨leaves_of_through, OpenAfter.through sub⟩

/-- Different brackets are not open behind one text. -/
theorem OpenAfter.unique (sub : opens ⊆ brackets) {other : List Char} (h : OpenAfter opens stack t)
    (k : OpenAfter opens other t) : other = stack :=
  congrArg Nesting.stack (Option.some.inj ((k.through sub).symm.trans (h.through sub)))

/-! ### Stops -/

/-- No stop is at top level. -/
def NoStop (opens stops t : List Char) : Prop :=
  ∀ front c rest, t = front ++ c :: rest → c ∈ stops → ¬Balanced opens front

theorem NoStop.of_append {a b : List Char} (h : NoStop opens stops (a ++ b)) : NoStop opens stops a :=
  fun front c rest whole => h front c (rest ++ b) (by simp [whole])

theorem noStop_concat_iff :
    NoStop opens stops (t ++ [c]) ↔ NoStop opens stops t ∧ (c ∈ stops → ¬Balanced opens t) := by
  constructor
  · exact fun h => ⟨h.of_append, h t c [] rfl⟩
  · rintro ⟨none, last⟩ front d rest whole mem
    rcases List.eq_nil_or_concat rest with rfl | ⟨rest, e, rfl⟩
    · obtain ⟨rfl, same⟩ := List.append_inj' whole rfl
      cases same
      exact last mem
    · have parts : t ++ [c] = (front ++ d :: rest) ++ [e] := by simpa using whole
      obtain ⟨rfl, -⟩ := List.append_inj' parts rfl
      exact none front d rest rfl mem

/-- Stops do not end a walk that passes none at top level. -/
theorem through_eq_some_iff_noStop (sub : opens ⊆ brackets) {n : Nesting} :
    top.through opens stops t = some n ↔ top.through opens [] t = some n ∧ NoStop opens stops t := by
  induction t using List.reverseRecOn generalizing n with
  | nil => exact ⟨fun h => ⟨h, by simp [NoStop]⟩, fun h => h.1⟩
  | append_singleton t c ih =>
    have level {m : Nesting} (walk : top.through opens [] t = some m) : m = top ↔ Balanced opens t := by
      rw [← openAfter_nil_iff, ← through_eq_some_iff sub, walk, Option.some_inj]
      rfl
    have last {m : Nesting} : m.through opens stops [c] = some n ↔
        m.through opens [] [c] = some n ∧ ¬(m = top ∧ c ∈ stops) := by
      simp only [Nesting.through, List.not_mem_nil, and_false, if_false]
      split <;> simp_all
    rw [noStop_concat_iff, through_append, through_append, Option.bind_eq_some_iff, Option.bind_eq_some_iff]
    constructor
    · rintro ⟨m, front, back⟩
      obtain ⟨walk, none⟩ := ih.1 front
      obtain ⟨step, goes⟩ := last.1 back
      exact ⟨⟨m, walk, step⟩, none, fun mem balanced => goes ⟨(level walk).2 balanced, mem⟩⟩
    · rintro ⟨⟨m, walk, step⟩, none, goes⟩
      exact ⟨m, ih.2 ⟨walk, none⟩, last.2 ⟨step, fun stop => goes stop.2 ((level walk).1 stop.1)⟩⟩

/-- A text is clear of stops when it is balanced and none of them is at top level. -/
theorem clear_iff_balanced (sub : opens ⊆ brackets) :
    Clear opens stops t ↔ Balanced opens t ∧ NoStop opens stops t := by
  rw [Clear, through_eq_some_iff_noStop sub, ← openAfter_nil_iff, ← through_eq_some_iff sub]
  rfl

/-! ### Scans -/

/-- What a scan that meets its definition makes of a text. It ends in front of the first stop at top level, or at the
end of a balanced text; and it fails where before any such stop a literal has no end, a closing bracket does not
belong to the innermost open one, or the text ends while a bracket is open. -/
inductive Scanned (opens stops : List Char) : List Char → Except BracketFault (List Char × List Char) → Prop
  | stop {front rest : List Char} {c : Char} (balanced : Balanced opens front) (first : NoStop opens stops front)
    (mem : c ∈ stops) : Scanned opens stops (front ++ c :: rest) (.ok (front, c :: rest))
  | finish {t : List Char} (balanced : Balanced opens t) (none : NoStop opens stops t) :
    Scanned opens stops t (.ok (t, []))
  | unterminated {stack front rest : List Char} {quote : Char} (before : OpenAfter opens stack front)
    (isQuote : IsQuote quote) (endless : ∀ body behind, LiteralBody quote body → rest ≠ body ++ quote :: behind)
    (none : NoStop opens stops (front ++ [quote])) :
    Scanned opens stops (front ++ quote :: rest) (.error .unterminatedLiteral)
  | unbalanced {stack front rest : List Char} {c : Char} (before : OpenAfter opens stack front)
    (closer : c ∈ opens.map closerOf) (other : ∀ bracket ∈ stack.head?, closerOf bracket ≠ c)
    (none : NoStop opens stops (front ++ [c])) :
    Scanned opens stops (front ++ c :: rest) (.error (.unbalanced c))
  | unclosed {bracket : Char} {stack t : List Char} (before : OpenAfter opens (bracket :: stack) t)
    (none : NoStop opens stops t) : Scanned opens stops t (.error (.unclosed bracket))

/-- Inside a literal without an end a scan fails. -/
theorem scanFrom_inside (endless : throughQuote? quote t = none) :
    scanFrom opens stops ⟨stack, .inside quote⟩ t = .error .unterminatedLiteral := by
  have behind := @eq_behind_literal _ opens stack quote (fun n cs => (scanFrom opens stops n cs).map (·.2))
    (fun l inside => by simp [scanFrom, faultAtEnd?, inside, Except.map])
    (fun l inside c cs next step => by
      rw [scanFrom_cons _ fun stop => inside (congrArg Nesting.literal stop.1), step, ok_bind]) t
  rw [endless] at behind
  cases found : scanFrom opens stops ⟨stack, .inside quote⟩ t with
  | error fault =>
    rw [found] at behind
    exact congrArg Except.error (Except.error.inj behind)
  | ok parts =>
    rw [found] at behind
    cases behind

/-- A closing bracket of another kind than the innermost open one is a fault. -/
theorem step_unbalanced (sub : opens ⊆ brackets) (closer : c ∈ opens.map closerOf)
    (other : ∀ bracket ∈ stack.head?, closerOf bracket ≠ c) :
    (⟨stack, .outside⟩ : Nesting).step opens c = .error (.unbalanced c) := by
  rw [step_closer sub closer, if_neg]
  simpa [Option.map_eq_some_iff] using other

/-- The other way round: this is the only fault of a single character. -/
theorem of_step_error {n : Nesting} {fault : BracketFault} (h : n.step opens c = .error fault) :
    n.literal = .outside ∧ c ∈ opens.map closerOf ∧ (∀ bracket ∈ n.stack.head?, closerOf bracket ≠ c) ∧
      fault = .unbalanced c := by
  obtain ⟨stack, literal⟩ := n
  cases literal with
  | escaped quote => cases h
  | inside quote =>
    simp only [step] at h
    split_ifs at h
  | outside =>
    simp only [step, ← mem_map_closerOf] at h
    split_ifs at h with isQuote opener closer
    cases stack with
    | nil =>
      cases h
      exact ⟨rfl, closer, by simp, rfl⟩
    | cons bracket outer =>
      simp only at h
      split_ifs at h with same
      cases h
      exact ⟨rfl, closer, by simpa using same, rfl⟩

/-- What meets the definition is what the scan gives. -/
theorem Scanned.scanFrom (sub : opens ⊆ brackets) {x : Except BracketFault (List Char × List Char)}
    (h : Scanned opens stops t x) : scanFrom opens stops top t = x := by
  have goes {stack front : List Char} (before : OpenAfter opens stack front) (none : NoStop opens stops front) :
      top.through opens stops front = some ⟨stack, .outside⟩ :=
    (through_eq_some_iff_noStop sub).2 ⟨before.through sub, none⟩
  cases h with
  | stop balanced first mem =>
    rw [scanFrom_through (goes (.top balanced) first), Text.scanFrom, if_pos ⟨rfl, mem⟩]
    simp [Except.map, behind]
  | finish balanced none => exact scanFrom_eq_ok_iff.2 ⟨by simp, goes (.top balanced) none, by simp⟩
  | @unterminated stack front rest quote before isQuote endless none =>
    have walk : top.through opens [] (front ++ [quote]) = some ⟨stack, .inside quote⟩ := by
      rw [through_concat (before.through sub), step_quote isQuote]
      rfl
    rw [List.append_cons, scanFrom_through ((through_eq_some_iff_noStop sub).2 ⟨walk, none⟩),
      scanFrom_inside ((throughQuote?_eq_none_iff isQuote).2 endless)]
    rfl
  | @unbalanced stack front rest c before closer other none =>
    obtain ⟨none, last⟩ := noStop_concat_iff.1 none
    have noStop : ¬((⟨stack, .outside⟩ : Nesting) = top ∧ c ∈ stops) := by
      rintro ⟨here, mem⟩
      obtain rfl : stack = [] := congrArg Nesting.stack here
      exact last mem (openAfter_nil_iff.1 before)
    rw [scanFrom_through (goes before none), Text.scanFrom, if_neg noStop]
    simp only [step_unbalanced sub closer other]
    rfl
  | unclosed before none =>
    rw [← List.append_nil t, scanFrom_through (goes before none)]
    rfl

/-- A text without a stop meets the definition for what is open at its end. -/
theorem scanned_end (sub : opens ⊆ brackets) {n : Nesting} {front : List Char}
    (walk : top.through opens stops front = some n) :
    Scanned opens stops front ((scanFrom opens stops n []).map (behind front)) := by
  obtain ⟨through, none⟩ := (through_eq_some_iff_noStop sub).1 walk
  have leaves := leaves_of_through through
  obtain ⟨stack, literal⟩ := n
  cases literal with
  | outside =>
    cases stack with
    | nil => simpa [scanFrom, faultAtEnd?, Except.map, behind] using Scanned.finish (openAfter_nil_iff.1 leaves) none
    | cons bracket stack => exact .unclosed leaves none
  | inside quote =>
    obtain ⟨before, body, rfl, openBefore, isQuote, inside⟩ := leaves
    have endless : throughQuote? quote body = Option.none := by
      simpa [throughQuote?] using inside.throughQuote?_append []
    exact .unterminated openBefore isQuote ((throughQuote?_eq_none_iff isQuote).1 endless)
      (NoStop.of_append (by simpa using none))
  | escaped quote =>
    obtain ⟨before, body, rfl, openBefore, isQuote, inside⟩ := leaves
    have endless : throughQuote? quote (body ++ ['\\']) = Option.none := by
      simpa [throughQuote?] using inside.throughQuote?_append ['\\']
    rw [List.append_assoc, List.cons_append]
    exact .unterminated openBefore isQuote ((throughQuote?_eq_none_iff isQuote).1 endless)
      (NoStop.of_append (by simpa using none))

/-- What a scan gives behind a text without a stop meets the definition for the whole text. -/
theorem scanned_behind (sub : opens ⊆ brackets) {n : Nesting} {front : List Char}
    (walk : top.through opens stops front = some n) (cs : List Char) :
    Scanned opens stops (front ++ cs) ((scanFrom opens stops n cs).map (behind front)) := by
  induction cs generalizing front n with
  | nil =>
    rw [List.append_nil]
    exact scanned_end sub walk
  | cons c cs ih =>
    rw [scanFrom]
    split
    · rename_i stop
      obtain ⟨rfl, mem⟩ := stop
      obtain ⟨through, none⟩ := (through_eq_some_iff_noStop sub).1 walk
      have balanced := openAfter_nil_iff.1 ((through_eq_some_iff sub).1 through)
      have met : Scanned opens stops (front ++ c :: cs) (.ok (front, c :: cs)) := .stop balanced none mem
      simpa [Except.map, behind] using met
    · rename_i goes
      cases stepped : n.step opens c with
      | error fault =>
        obtain ⟨stack, literal⟩ := n
        obtain ⟨rfl, closer, other, rfl⟩ := of_step_error stepped
        obtain ⟨through, none⟩ := (through_eq_some_iff_noStop sub).1 walk
        have before := (through_eq_some_iff sub).1 through
        refine .unbalanced before closer other (noStop_concat_iff.2 ⟨none, fun mem balanced => goes ⟨?_, mem⟩⟩)
        obtain rfl : stack = [] := (OpenAfter.top balanced).unique sub before
        rfl
      | ok next =>
        have further : top.through opens stops (front ++ [c]) = some next := by
          rw [through_append, walk, Option.bind_some, Nesting.through, if_neg goes]
          simp [stepped]
        have later := ih further
        rw [List.append_assoc, List.singleton_append] at later
        cases found : scanFrom opens stops next cs <;> simpa [found, Except.map, behind] using later

/-- **A scan meets its definition.** -/
theorem scanned_iff (sub : opens ⊆ brackets) {cs : List Char} {x : Except BracketFault (List Char × List Char)} :
    Scanned opens stops cs x ↔ scanFrom opens stops top cs = x := by
  refine ⟨Scanned.scanFrom sub, ?_⟩
  rintro rfl
  have whole : Scanned opens stops ([] ++ cs) ((scanFrom opens stops top cs).map (behind [])) :=
    scanned_behind sub rfl cs
  rw [List.nil_append] at whole
  cases found : scanFrom opens stops top cs <;> simpa [found, Except.map, behind] using whole

/-! ### The closing bracket -/

/-- What the scan up to a closing bracket says of the search for it: the bracket must be there. -/
def closing (bracket : Char) :
    Except BracketFault (List Char × List Char) → Except BracketFault (List Char × List Char)
  | .ok (inner, c :: rest) => .ok (inner ++ [c], rest)
  | .ok (_, []) | .error (.unclosed _) => .error (.unclosed (closerOf bracket))
  | .error fault => .error fault

/-- What is a fault by itself is one inside of another bracket too, unless it closes that bracket. -/
theorem step_deeper_error {n : Nesting} {fault : BracketFault} (h : n.step brackets c = .error fault)
    (other : ¬(n = top ∧ c ∈ [closerOf bracket])) :
    (⟨n.stack ++ [bracket], n.literal⟩ : Nesting).step brackets c = .error fault := by
  obtain ⟨stack, literal⟩ := n
  obtain ⟨rfl, closer, last, rfl⟩ := of_step_error h
  apply step_unbalanced (List.Subset.refl brackets) closer
  cases stack with
  | nil =>
    rintro _ ⟨⟩ same
    exact other ⟨rfl, by simp [same]⟩
  | cons innermost stack => simpa using last

/-- The search for the bracket that closes another one is a scan up to that bracket. -/
theorem closeFrom_eq (known : bracket ∈ brackets) (n : Nesting) (cs : List Char) :
    closeFrom (closerOf bracket) ⟨n.stack ++ [bracket], n.literal⟩ cs =
      closing bracket (scanFrom brackets [closerOf bracket] n cs) := by
  induction cs generalizing n with
  | nil =>
    obtain ⟨stack, literal⟩ := n
    rw [closeFrom, scanFrom]
    cases literal <;> cases stack <;> rfl
  | cons c cs ih =>
    by_cases own : n = top ∧ c ∈ [closerOf bracket]
    · rw [scanFrom, if_pos own]
      obtain ⟨rfl, mem⟩ := own
      obtain rfl := List.mem_singleton.1 mem
      have closes : (⟨[bracket], .outside⟩ : Nesting).step brackets (closerOf bracket) = .ok top :=
        step_ownCloser (List.Subset.refl brackets) known
      simp only [closeFrom, top, List.nil_append, closes]
      rfl
    · rw [closeFrom, scanFrom, if_neg own]
      cases stepped : n.step brackets c with
      | error fault =>
        simp only [step_deeper_error stepped own]
        obtain ⟨-, -, -, rfl⟩ := of_step_error stepped
        rfl
      | ok next =>
        have deep : next.stack ++ [bracket] ≠ [] := by simp
        simp only [step_deeper [bracket] stepped, if_neg deep, ih next]
        cases scanFrom brackets [closerOf bracket] next cs with
        | error fault => cases fault <;> rfl
        | ok found =>
          obtain ⟨piece, rest⟩ := found
          cases rest <;> rfl

theorem throughClose_eq (known : bracket ∈ brackets) (cs : List Char) :
    throughClose bracket cs = closing bracket (scanFrom brackets [closerOf bracket] top cs) :=
  closeFrom_eq known top cs

/-- No closing bracket stands at top level in a balanced text. -/
theorem Balanced.noStop_closer (sub : opens ⊆ brackets) (closer : c ∈ opens.map closerOf) (h : Balanced opens t) :
    NoStop opens [c] t := by
  rintro front _ rest rfl mem balanced
  obtain rfl := List.mem_singleton.1 mem
  have walk := h.through sub []
  rw [through_append, balanced.through sub, Option.bind_some, Nesting.through, if_neg (by simp),
    step_closer sub closer] at walk
  cases walk

/-- **The bracket that closes another one** is the one behind a balanced text. -/
theorem throughClose_eq_ok_iff (known : bracket ∈ brackets) {cs piece rest : List Char} :
    throughClose bracket cs = .ok (piece, rest) ↔
      ∃ inner, Balanced brackets inner ∧ piece = inner ++ [closerOf bracket] ∧ cs = piece ++ rest := by
  have all := List.Subset.refl brackets
  rw [throughClose_eq known]
  constructor
  · intro h
    have met : Scanned brackets [closerOf bracket] cs _ := (scanned_iff all).2 rfl
    generalize scanFrom brackets [closerOf bracket] top cs = x at met h
    cases met with
    | @stop inner behind c balanced first mem =>
      obtain rfl := List.mem_singleton.1 mem
      cases h
      exact ⟨inner, balanced, rfl, by simp⟩
    | finish | unterminated | unbalanced | unclosed => cases h
  · rintro ⟨inner, balanced, rfl, rfl⟩
    have first := balanced.noStop_closer all (List.mem_map_of_mem known)
    have met : Scanned brackets [closerOf bracket] (inner ++ closerOf bracket :: rest) _ :=
      .stop balanced first (List.mem_singleton.2 rfl)
    rw [List.append_assoc, List.singleton_append, met.scanFrom all, closing]

end ApiSurface.Text
