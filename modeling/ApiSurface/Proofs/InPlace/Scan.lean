import ApiSurface.Proofs.InPlace.Run
import ApiSurface.Proofs.Text.Passing

/-!
The scanner in place. It goes byte by byte, over the bytes of one character too, and a backslash in a
literal takes one byte along, which may be the first of several. It still stops at the beginnings of
characters only, since all that it looks for are ASCII characters, whose bytes occur in no other one.
Main statements: the scanner, the search for a closing bracket and the cutting at commas are never stuck
and end where the readers do (`reaches_scan`, `matchingClose_spec`, `splitTopLevel_eq`).
-/

namespace ApiSurface.InPlace

open ApiSurface.Text

/-! ### Runs of one character -/

/-- The first place from here on where this character is not. -/
def skip (mark : Char) (s : List Char) (i : Nat) : Nat :=
  if h : byteAt? s i = some mark then skip mark s (i + 1) else i
termination_by byteLength s - i
decreasing_by
  have := lt_of_byteAt? h
  omega

/-- The first place from here on where there is no space. -/
def skipSpaces (s : List Char) (i : Nat) : Nat := skip ' ' s i

/-! ### Literals and brackets -/

/-- The place of the quote that ends a literal, from a place inside it. -/
def quoteEnd? (s : List Char) (quote : Char) (i : Nat) : Option Nat :=
  match h : byteAt? s i with
  | none => none
  | some c =>
    if c = '\\' then quoteEnd? s quote (i + 2)
    else if c = quote then some i
    else quoteEnd? s quote (i + 1)
termination_by byteLength s - i
decreasing_by all_goals
  have := lt_of_byteAt? h
  omega

/-- The place of the quote that ends the literal begun here. -/
def skipQuoted {ε : Type} (s : List Char) (i : Nat) : Run ε (Option Nat) := do
  let quote ← the (byteAt? s i)
  return quoteEnd? s quote (i + 1)

/-- Passes the literal that begins here, or the byte `c`; the brackets that are open behind it, innermost
first, and where it ends. -/
def advance (opens : List Char) (s : List Char) (stack : List Char) (i : Nat) (c : Char) :
    Run BracketFault (List Char × Nat) :=
  if c = '"' ∨ c = '\'' then do
    match ← skipQuoted s i with
    | none => throw .unterminatedLiteral
    | some close => return (stack, close + 1)
  else
    match Nesting.step opens ⟨stack, .outside⟩ c with
    | .error fault => throw fault
    | .ok next => return (next.stack, i + 1)

/-- The first place of a character of `stops` that is outside the brackets in `opens` and outside
literals, or the end. -/
def scan (opens stops : List Char) (s : List Char) (stack : List Char) (i : Nat) : Run BracketFault Nat :=
  match _here : byteAt? s i with
  | none =>
    match stack with
    | [] => return byteLength s
    | bracket :: _ => throw (.unclosed bracket)
  | some c =>
    if stack = [] ∧ c ∈ stops then return i
    else do
      let (stack, j) ← advance opens s stack i c
      let ⟨_⟩ ← check (i < j)
      scan opens stops s stack j
termination_by byteLength s - i
decreasing_by
  have := lt_of_byteAt? _here
  omega

/-- The first place of a character of `stops` outside all brackets and literals, or the end. -/
def scanTo (stops : List Char) (s : List Char) (i : Nat) : Run BracketFault Nat := scan brackets stops s [] i

/-- The place of the bracket `wanted` that closes the last one of the stack. -/
def closeAt (wanted : Char) (s : List Char) (stack : List Char) (i : Nat) : Run BracketFault Nat :=
  match _here : byteAt? s i with
  | none => throw (.unclosed wanted)
  | some c => do
    let (stack, j) ← advance brackets s stack i c
    if stack = [] then do
      let _ ← check (c = wanted)
      return i
    else do
      let ⟨_⟩ ← check (i < j)
      closeAt wanted s stack j
termination_by byteLength s - i
decreasing_by
  have := lt_of_byteAt? _here
  omega

/-- The place of the bracket that closes the one here. -/
def matchingClose (s : List Char) (i : Nat) : Run BracketFault Nat := do
  let bracket ← the (byteAt? s i)
  closeAt (closerOf bracket) s [bracket] (i + 1)

/-- The items from this place on: what is between commas at top level, trimmed, without empty ones. -/
def splitFrom (opens : List Char) (s : List Char) (i : Nat) : Run BracketFault (List (List Char)) :=
  if i ≤ byteLength s then do
    let stop ← scan opens [','] s [] i
    let part ← slice s i stop
    let ⟨_⟩ ← check (i ≤ stop)
    let more ← splitFrom opens s (stop + 1)
    return if (trim part).isEmpty then more else trim part :: more
  else return []
termination_by byteLength s + 1 - i

/-- The items of a list with commas at top level. -/
def splitTopLevel (opens : List Char) (s : List Char) : Run BracketFault (List (List Char)) := splitFrom opens s 0

/-! ### Laws -/

variable {ε β : Type} {s cs rest opens stops stack : List Char} {c quote : Char} {i j : Nat}

theorem notMem_marks_of_high (high : ¬IsAscii c) : c ∉ marks := by
  have all : ∀ d ∈ marks, IsAscii d := by decide
  exact fun mem => high (all c mem)

/-- In front of a text there is a byte, and it is an ASCII character just if the first one of the text is. -/
theorem exists_byteAt? (h : restAt? s i = some (c :: cs)) :
    ∃ b, byteAt? s i = some b ∧ ∀ d, IsAscii d → (b = d ↔ c = d) := by
  by_cases one : IsAscii c
  · exact ⟨c, byteAt?_of_restAt?_cons one h, fun d _ => Iff.rfl⟩
  · obtain ⟨b, byte, high⟩ := exists_byteAt?_of_restAt?_cons (j := 0) one h c.utf8Size_pos
    refine ⟨b, byte, fun d ascii => ⟨?_, ?_⟩⟩
    · rintro rfl
      exact absurd ascii high
    · rintro rfl
      exact absurd ascii one

/-- A run of one character is passed in the text as it is in what is left of it. -/
theorem restAt?_skip {mark : Char} (ascii : IsAscii mark) (h : restAt? s i = some cs) :
    restAt? s (skip mark s i) = some (cs.dropWhile (· == mark)) := by
  induction cs generalizing i with
  | nil =>
    have none : ¬byteAt? s i = some mark := by simp [byteAt?_of_restAt?_nil h]
    rw [skip, dif_neg none, h]
    rfl
  | cons c cs ih =>
    obtain ⟨b, byte, same⟩ := exists_byteAt? h
    by_cases here : c = mark
    · subst here
      rw [skip, dif_pos (byteAt?_of_restAt?_cons ascii h), ih (restAt?_cons_ascii ascii h)]
      simp
    · have other : ¬byteAt? s i = some mark := by simpa [byte, same mark ascii] using here
      rw [skip, dif_neg other, h]
      simp [here]

theorem restAt?_skipSpaces (h : restAt? s i = some cs) : restAt? s (skipSpaces s i) = some (dropSpaces cs) :=
  restAt?_skip (by decide) h

theorem le_skip (mark : Char) (s : List Char) (i : Nat) : i ≤ skip mark s i := by
  fun_induction skip mark s i with
  | case1 i h ih => omega
  | case2 i h => exact Nat.le_refl i

theorem le_skipSpaces (s : List Char) (i : Nat) : i ≤ skipSpaces s i := le_skip ' ' s i

/-- What goes on behind every byte that is no ASCII character goes on behind every character that is none,
also from between its bytes. -/
theorem eq_behind {f : Nat → β} (still : ∀ i d, byteAt? s i = some d → ¬IsAscii d → f i = f (i + 1))
    (high : ¬IsAscii c) (h : restAt? s i = some (c :: cs)) (inside : j ≤ c.utf8Size) :
    f (i + j) = f (i + c.utf8Size) := by
  obtain ⟨k, whole⟩ := Nat.exists_eq_add_of_le inside
  induction k generalizing j with
  | zero => rw [whole, Nat.add_zero]
  | succ k ih =>
    obtain ⟨d, byte, other⟩ := exists_byteAt?_of_restAt?_cons (j := j) high h (by omega)
    rw [still _ d byte other, Nat.add_assoc]
    exact ih (by omega) (by omega)

/-! ### The end of a literal -/

theorem quoteEnd?_of_byteAt?_eq_none (h : byteAt? s i = none) : quoteEnd? s quote i = none := by
  rw [quoteEnd?]
  split
  · rfl
  · simp_all

theorem quoteEnd?_of_byteAt?_eq_some (h : byteAt? s i = some c) :
    quoteEnd? s quote i =
      if c = '\\' then quoteEnd? s quote (i + 2)
      else if c = quote then some i
      else quoteEnd? s quote (i + 1) := by
  rw [quoteEnd?]
  split <;> simp_all

theorem quoteEnd?_high (ascii : IsAscii quote) (i : Nat) (d : Char) (h : byteAt? s i = some d)
    (high : ¬IsAscii d) : quoteEnd? s quote i = quoteEnd? s quote (i + 1) := by
  have noSlash : d ≠ '\\' := by
    rintro rfl
    exact high (by decide)
  have noQuote : d ≠ quote := by
    rintro rfl
    exact high ascii
  rw [quoteEnd?_of_byteAt?_eq_some h, if_neg noSlash, if_neg noQuote]

/-- From a place inside a character on, or from its end. -/
theorem quoteEnd?_behind (ascii : IsAscii quote) (h : restAt? s i = some (c :: cs)) :
    quoteEnd? s quote (i + 1) = quoteEnd? s quote (i + c.utf8Size) := by
  by_cases one : IsAscii c
  · rw [utf8Size_of_ascii one]
  · exact eq_behind (quoteEnd?_high ascii) one h c.utf8Size_pos

/-- The end of a literal is where the reader finds it. -/
theorem quoteEnd?_spec (ascii : IsAscii quote) (h : restAt? s i = some cs) :
    match throughQuote? quote cs with
    | none => quoteEnd? s quote i = none
    | some (_, rest) => ∃ j, quoteEnd? s quote i = some j ∧ restAt? s j = some (quote :: rest) := by
  fun_induction throughQuote? quote cs generalizing i with
  | case1 => exact quoteEnd?_of_byteAt?_eq_none (byteAt?_of_restAt?_nil h)
  | case2 c cs ih =>
    have slash : IsAscii '\\' := by decide
    have behind := restAt?_cons_ascii slash h
    have same : quoteEnd? s quote i = quoteEnd? s quote (i + 1 + c.utf8Size) := by
      rw [quoteEnd?_of_byteAt?_eq_some (byteAt?_of_restAt?_cons slash h), if_pos rfl]
      exact quoteEnd?_behind ascii behind
    rw [same]
    have later := ih (restAt?_cons behind)
    cases found : throughQuote? quote cs <;> simpa [found] using later
  | case3 cs last =>
    have slash : IsAscii '\\' := by decide
    have empty : cs = [] := by
      cases cs with
      | nil => rfl
      | cons d cs => exact absurd rfl (last d cs rfl)
    subst empty
    rw [quoteEnd?_of_byteAt?_eq_some (byteAt?_of_restAt?_cons slash h), if_pos rfl]
    have length := add_byteLength_of_restAt? h
    refine quoteEnd?_of_byteAt?_eq_none (byteAt?_eq_none_iff.2 ?_)
    simp [utf8Size_of_ascii slash] at length
    omega
  | case4 cs _ noSlash =>
    refine ⟨i, ?_, h⟩
    rw [quoteEnd?_of_byteAt?_eq_some (byteAt?_of_restAt?_cons ascii h), if_neg noSlash, if_pos rfl]
  | case5 c cs _ noSlash noQuote ih =>
    have same : quoteEnd? s quote i = quoteEnd? s quote (i + c.utf8Size) := by
      by_cases one : IsAscii c
      · rw [quoteEnd?_of_byteAt?_eq_some (byteAt?_of_restAt?_cons one h), if_neg noSlash, if_neg noQuote,
          utf8Size_of_ascii one]
      · exact eq_behind (j := 0) (quoteEnd?_high ascii) one h (Nat.zero_le _)
    rw [same]
    have later := ih (restAt?_cons h)
    cases found : throughQuote? quote cs <;> simpa [found] using later

/-! ### The scanner -/

/-- The program ends as the reader does, at the place where the rest of the reader begins. -/
def Reaches (s : List Char) (r : Run ε Nat) (x : Except ε (List Char)) : Prop :=
  match x with
  | .error e => r = done (.error e)
  | .ok rest => ∃ i, r = done (.ok i) ∧ restAt? s i = some rest

theorem Follows.bind_reaches {α : Type} {among : List Char → Prop} {r : Run ε (α × Nat)}
    {x : Except ε (α × List Char)} {k : α × Nat → Run ε Nat} {f : α × List Char → Except ε (List Char)}
    (h : Follows s among r x)
    (next : ∀ a i rest, x = .ok (a, rest) → restAt? s i = some rest → among rest → Reaches s (k (a, i)) (f (a, rest))) :
    Reaches s (r >>= k) (x >>= f) := by
  cases list : x with
  | error e =>
    rw [h.of_error list]
    rfl
  | ok found =>
    obtain ⟨a, rest⟩ := found
    obtain ⟨i, run, place, mem⟩ := h.of_ok list
    rw [run]
    exact next a i rest list place mem

/-- The end of a literal is found where the reader finds it. -/
theorem skipQuoted_spec (ascii : IsAscii quote) (h : restAt? s i = some (quote :: cs)) :
    match throughQuote? quote cs with
    | none => (skipQuoted s i : Run ε (Option Nat)) = done (.ok none)
    | some (inside, rest) => ∃ j, (skipQuoted s i : Run ε (Option Nat)) = done (.ok (some j)) ∧
        restAt? s (i + 1) = some (inside ++ (quote :: rest)) ∧ restAt? s j = some (quote :: rest) := by
  have behind := restAt?_cons_ascii ascii h
  have spec := quoteEnd?_spec ascii behind
  rw [skipQuoted, byteAt?_of_restAt?_cons ascii h, the_some, done_ok_bind]
  cases found : throughQuote? quote cs with
  | none =>
    rw [found] at spec
    rw [spec]
    rfl
  | some parts =>
    obtain ⟨inside, rest⟩ := parts
    rw [found] at spec
    obtain ⟨j, close, place⟩ := spec
    refine ⟨j, by rw [close]; rfl, ?_, place⟩
    rw [throughQuote?_append found]
    exact behind

/-- A literal and any other character are passed as the reader passes them. -/
theorem follows_advance (ascii : IsAscii c) (h : restAt? s i = some (c :: cs)) :
    Follows s (· <:+ cs) (advance opens s stack i c) (passOne opens stack c cs) := by
  unfold advance passOne
  by_cases isQuote : c = '"' ∨ c = '\''
  · rw [if_pos isQuote, if_pos isQuote]
    have spec := skipQuoted_spec (ε := BracketFault) ascii h
    cases found : throughQuote? c cs with
    | none =>
      rw [found] at spec
      rw [spec]
      exact Follows.fault _
    | some parts =>
      obtain ⟨inside, rest⟩ := parts
      rw [found] at spec
      obtain ⟨j, close, -, place⟩ := spec
      rw [close]
      refine Follows.value _ (restAt?_cons_ascii ascii place) ⟨inside ++ [c], ?_⟩
      simpa using throughQuote?_append found
  · rw [if_neg isQuote, if_neg isQuote]
    cases Nesting.step opens ⟨stack, .outside⟩ c with
    | error fault => exact Follows.fault _
    | ok next => exact Follows.value _ (restAt?_cons_ascii ascii h) (List.suffix_refl cs)

/-- A byte of a longer character opens and closes nothing. -/
theorem advance_high (sub : opens ⊆ brackets) (high : ¬IsAscii c) :
    advance opens s stack i c = done (.ok (stack, i + 1)) := by
  have plain := notMem_marks_of_high high
  have noQuote : ¬(c = '"' ∨ c = '\'') := by
    rintro (rfl | rfl) <;> exact plain (by decide)
  rw [advance, if_neg noQuote, Nesting.step_of_notMem_marks sub rfl plain]
  rfl

theorem scan_of_byteAt?_eq_some (h : byteAt? s i = some c) :
    scan opens stops s stack i =
      if stack = [] ∧ c ∈ stops then pure i
      else advance opens s stack i c >>= fun found =>
        check (i < found.2) >>= fun _ => scan opens stops s found.1 found.2 := by
  rw [scan.eq_def]
  split
  · simp_all
  · rename_i d here
    obtain rfl : c = d := Option.some.inj (h.symm.trans here)
    rfl

theorem scan_of_byteAt?_eq_none (h : byteAt? s i = none) :
    scan opens stops s stack i =
      match stack with
      | [] => done (.ok (byteLength s))
      | bracket :: _ => done (.error (.unclosed bracket)) := by
  rw [scan.eq_def]
  split
  · rfl
  · simp_all

theorem scan_high (sub : opens ⊆ brackets) (ascii : ∀ c ∈ stops, IsAscii c) (i : Nat) (d : Char)
    (h : byteAt? s i = some d) (high : ¬IsAscii d) :
    scan opens stops s stack i = scan opens stops s stack (i + 1) := by
  have noStop : ¬(stack = [] ∧ d ∈ stops) := fun stop => high (ascii d stop.2)
  rw [scan_of_byteAt?_eq_some h, if_neg noStop, advance_high sub high, done_ok_bind, check_of (Nat.lt_succ_self i),
    done_ok_bind]

/-- The scanner stops where the reader does. -/
theorem reaches_scan (sub : opens ⊆ brackets) (ascii : ∀ c ∈ stops, IsAscii c) (h : restAt? s i = some cs) :
    Reaches s (scan opens stops s stack i) ((scanFrom opens stops ⟨stack, .outside⟩ cs).map (·.2)) := by
  induction length : cs.length using Nat.strong_induction_on generalizing cs stack i with
  | _ n ih =>
    cases cs with
    | nil =>
      have size : i = byteLength s := by simpa using add_byteLength_of_restAt? h
      rw [scan_of_byteAt?_eq_none (byteAt?_of_restAt?_nil h)]
      cases stack with
      | nil => exact ⟨byteLength s, rfl, restAt?_byteLength s⟩
      | cons bracket outer => rfl
    | cons c cs =>
      by_cases stop : stack = [] ∧ c ∈ stops
      · rw [scan_of_byteAt?_eq_some (byteAt?_of_restAt?_cons (ascii c stop.2) h), if_pos stop, scanFrom,
          if_pos (by simpa [Nesting.top] using stop)]
        exact ⟨i, rfl, h⟩
      rw [scanFrom_passOne stop]
      by_cases one : IsAscii c
      · rw [scan_of_byteAt?_eq_some (byteAt?_of_restAt?_cons one h), if_neg stop]
        refine (follows_advance one h).bind_reaches fun stack j rest _ place less => ?_
        rw [check_of (lt_of_restAt? h place less).1, done_ok_bind]
        have shorter := less.length_le
        exact ih rest.length (by simp only [List.length_cons] at length; omega) place rfl
      · have noQuote : ¬(c = '"' ∨ c = '\'') := by
          rintro (rfl | rfl) <;> exact one (by decide)
        have same : scan opens stops s stack i = scan opens stops s stack (i + c.utf8Size) :=
          eq_behind (j := 0) (scan_high sub ascii) one h (Nat.zero_le _)
        rw [same, passOne, if_neg noQuote, Nesting.step_of_notMem_marks sub rfl (notMem_marks_of_high one)]
        exact ih cs.length (by simp only [List.length_cons] at length; omega) (restAt?_cons h) rfl

/-- What the scanner passes is what the reader takes. -/
theorem scan_spec (sub : opens ⊆ brackets) (ascii : ∀ c ∈ stops, IsAscii c) (h : restAt? s i = some cs) :
    match scanFrom opens stops .top cs with
    | .error fault => scan opens stops s [] i = done (.error fault)
    | .ok (piece, rest) => ∃ j, scan opens stops s [] i = done (.ok j) ∧ restAt? s j = some rest ∧
        (slice s i j : Run ε (List Char)) = done (.ok piece) := by
  have reaches : Reaches s (scan opens stops s [] i) ((scanFrom opens stops .top cs).map (·.2)) :=
    reaches_scan sub ascii h
  cases list : scanFrom opens stops .top cs with
  | error fault =>
    rw [list] at reaches
    exact reaches
  | ok found =>
    obtain ⟨piece, rest⟩ := found
    rw [list] at reaches
    obtain ⟨j, run, place⟩ := reaches
    refine ⟨j, run, place, slice_of_restAt? ?_ place⟩
    rw [scanFrom_append list]
    exact h

/-! ### The closing bracket -/

theorem closeAt_of_byteAt?_eq_some {wanted : Char} (h : byteAt? s i = some c) :
    closeAt wanted s stack i = advance brackets s stack i c >>= fun found =>
      if found.1 = [] then check (c = wanted) >>= fun _ => pure i
      else check (i < found.2) >>= fun _ => closeAt wanted s found.1 found.2 := by
  rw [closeAt]
  split
  · simp_all
  · rename_i d here
    obtain rfl : c = d := Option.some.inj (h.symm.trans here)
    rfl

theorem closeAt_of_byteAt?_eq_none {wanted : Char} (h : byteAt? s i = none) :
    closeAt wanted s stack i = done (.error (.unclosed wanted)) := by
  rw [closeAt]
  split
  · rfl
  · simp_all

theorem closeAt_high {wanted : Char} (deep : stack ≠ []) (i : Nat) (d : Char) (h : byteAt? s i = some d)
    (high : ¬IsAscii d) : closeAt wanted s stack i = closeAt wanted s stack (i + 1) := by
  rw [closeAt_of_byteAt?_eq_some h, advance_high (List.Subset.refl _) high, done_ok_bind, if_neg deep,
    check_of (Nat.lt_succ_self i), done_ok_bind]

/-- The closing bracket is where the reader finds it. -/
theorem reaches_closeAt {wanted : Char} (last : stack.getLast?.map closerOf = some wanted)
    (h : restAt? s i = some cs) :
    Reaches s ((· + 1) <$> closeAt wanted s stack i) ((closeFrom wanted ⟨stack, .outside⟩ cs).map (·.2)) := by
  have deep : stack ≠ [] := by
    rintro rfl
    simp at last
  induction length : cs.length using Nat.strong_induction_on generalizing cs stack i with
  | _ n ih =>
    cases cs with
    | nil =>
      rw [closeAt_of_byteAt?_eq_none (byteAt?_of_restAt?_nil h)]
      simp [closeFrom, map_done, Except.map, Reaches]
    | cons c cs =>
      rw [closeFrom_passOne deep]
      by_cases one : IsAscii c
      · rw [closeAt_of_byteAt?_eq_some (byteAt?_of_restAt?_cons one h), map_bind]
        refine (follows_advance one h).bind_reaches fun next j rest passed place less => ?_
        rcases of_passOne deep passed with ⟨still, same⟩ | ⟨rfl, rfl, closed⟩
        · rw [if_neg still, behindClose_of_ne still, check_of (lt_of_restAt? h place less).1, done_ok_bind]
          have shorter := less.length_le
          exact ih rest.length (by simp only [List.length_cons] at length; omega) (same ▸ last) place still rfl
        · have own : c = wanted := by simpa [closed] using last
          rw [if_pos rfl, behindClose, if_pos rfl, check_of own, done_ok_bind]
          exact ⟨i + 1, rfl, restAt?_cons_ascii one h⟩
      · have noQuote : ¬(c = '"' ∨ c = '\'') := by
          rintro (rfl | rfl) <;> exact one (by decide)
        have same : closeAt wanted s stack i = closeAt wanted s stack (i + c.utf8Size) :=
          eq_behind (j := 0) (closeAt_high deep) one h (Nat.zero_le _)
        rw [same, passOne, if_neg noQuote, Nesting.step_of_notMem_marks (List.Subset.refl _) rfl (notMem_marks_of_high one),
          map_ok, ok_bind, behindClose_of_ne deep]
        exact ih cs.length (by simp only [List.length_cons] at length; omega) last (restAt?_cons h) deep rfl

/-- The bracket that closes this one is where the reader finds it. -/
theorem matchingClose_spec {bracket : Char} (ascii : IsAscii bracket) (h : restAt? s i = some (bracket :: cs)) :
    match throughClose bracket cs with
    | .error fault => matchingClose s i = done (.error fault)
    | .ok (_, rest) => ∃ j, matchingClose s i = done (.ok j) ∧ restAt? s (j + 1) = some rest := by
  have reaches : Reaches s ((· + 1) <$> closeAt (closerOf bracket) s [bracket] (i + 1))
      ((closeFrom (closerOf bracket) ⟨[bracket], .outside⟩ cs).map (·.2)) :=
    reaches_closeAt (by simp) (restAt?_cons_ascii ascii h)
  rw [matchingClose, byteAt?_of_restAt?_cons ascii h, the_some, done_ok_bind]
  unfold throughClose
  cases list : closeFrom (closerOf bracket) ⟨[bracket], .outside⟩ cs with
  | error fault =>
    rw [list] at reaches
    exact map_eq_done_error reaches
  | ok found =>
    rw [list] at reaches
    obtain ⟨k, run, place⟩ := reaches
    obtain ⟨j, here, rfl⟩ := map_eq_done_ok run
    exact ⟨j, here, place⟩

/-! ### Lists -/

theorem splitFrom_eq (sub : opens ⊆ brackets) (h : restAt? s i = some cs) :
    splitFrom opens s i = done (items opens cs) := by
  have comma : ∀ c ∈ [','], IsAscii c := by decide
  induction length : cs.length using Nat.strong_induction_on generalizing cs i with
  | _ n ih =>
    have fits : i ≤ byteLength s := by
      have := add_byteLength_of_restAt? h
      omega
    have spec := scan_spec (ε := BracketFault) sub comma h
    rw [splitFrom, if_pos fits, items_eq]
    cases list : scanFrom opens [','] .top cs with
    | error fault =>
      rw [list] at spec
      rw [spec]
      rfl
    | ok found =>
      obtain ⟨piece, rest⟩ := found
      rw [list] at spec
      obtain ⟨j, run, place, between⟩ := spec
      have whole := add_byteLength_of_restAt? place
      have here := add_byteLength_of_restAt? h
      have text := scanFrom_append list
      have along : i ≤ j := by
        rw [← text, byteLength_append] at here
        omega
      rw [run, done_ok_bind, between, done_ok_bind, check_of along, done_ok_bind, ok_bind]
      cases rest with
      | nil =>
        have passed : ¬j + 1 ≤ byteLength s := by simp at whole; omega
        rw [splitFrom, if_neg passed]
        rfl
      | cons d rest =>
        have separator : d = ',' := by
          have := (scanFrom_eq_ok_iff.1 list).2.2
          simpa using this
        subst separator
        have shorter : rest.length < n := by
          rw [← length, ← text]
          simp
          omega
        rw [ih rest.length shorter (restAt?_cons_ascii (by decide) place) rfl]
        dsimp only
        cases items opens rest <;> rfl

/-- The items of a list, cut in place, are those of the reader. -/
theorem splitTopLevel_eq (sub : opens ⊆ brackets) (s : List Char) : splitTopLevel opens s = done (items opens s) :=
  splitFrom_eq sub (restAt?_zero s)

end ApiSurface.InPlace
