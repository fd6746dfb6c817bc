import ApiSurface.Annotated.Reading
import ApiSurface.Literal.Constant
import ApiSurface.Proofs.Result
import ApiSurface.Proofs.Text.Numeral
import ApiSurface.Proofs.Text.SingleLine

/-!
Literals among other text. A scan goes through balanced text as if it were not there (`scanFrom_through`), and so
does the search for a closing bracket (`closeFrom_through`). Main statement: a text between quotes is printable,
is read back, and is passed as a whole by everything that cuts text, wherever it stands and whatever follows it
(`enclosed_taken_whole`).
-/

namespace ApiSurface

open ApiSurface.Text

namespace Text

open Nesting

variable {opens stops : List Char}

/-! ### Through balanced text -/

/-- What a scan cuts off behind a text, with the text in front. -/
def behind (front : List Char) (found : List Char × List Char) : List Char × List Char :=
  (front ++ found.1, found.2)

/-- A scan goes on behind a walk that no stop ends. -/
theorem scanFrom_through {n m : Nesting} {front : List Char} (walk : n.through opens stops front = some m)
    (rest : List Char) :
    scanFrom opens stops n (front ++ rest) = (scanFrom opens stops m rest).map (behind front) := by
  induction front generalizing n with
  | nil =>
    obtain rfl := Option.some.inj walk
    rw [List.nil_append]
    cases scanFrom opens stops n rest <;> rfl
  | cons c front ih =>
    obtain ⟨goes, next, stepped, later⟩ := through_cons_eq_some_iff.1 walk
    rw [List.cons_append, scanFrom, if_neg goes]
    simp only [stepped, ih later]
    cases scanFrom opens stops m rest <;> rfl

/-- The search for a closing bracket goes on behind a walk inside of another bracket. -/
theorem closeFrom_through {n m : Nesting} {front outer : List Char} (wanted : Char) (deep : outer ≠ [])
    (walk : n.through brackets [] front = some m) (rest : List Char) :
    closeFrom wanted ⟨n.stack ++ outer, n.literal⟩ (front ++ rest) =
      (closeFrom wanted ⟨m.stack ++ outer, m.literal⟩ rest).map (behind front) := by
  induction front generalizing n with
  | nil =>
    obtain rfl := Option.some.inj walk
    rw [List.nil_append]
    cases closeFrom wanted ⟨n.stack ++ outer, n.literal⟩ rest <;> rfl
  | cons c front ih =>
    obtain ⟨-, next, stepped, later⟩ := through_cons_eq_some_iff.1 walk
    have inside : next.stack ++ outer ≠ [] := List.append_ne_nil_of_right_ne_nil _ deep
    rw [List.cons_append, closeFrom]
    simp only [step_deeper outer stepped, inside, if_false, ih later]
    cases closeFrom wanted ⟨m.stack ++ outer, m.literal⟩ rest <;> rfl

end Text

namespace Literal

/-- A text between two of these quotes. -/
def enclosed (quote : Char) (t : List Char) : List Char := quote :: escape quote t ++ [quote]

theorem stringLiteral_eq (t : List Char) : stringLiteral t = enclosed '"' t := rfl

theorem charLiteral_eq (c : Char) : charLiteral c = enclosed '\'' [c] := rfl

variable {quote : Char} {opens stops : List Char}

/-- Different texts are different between quotes. -/
theorem enclosed_inj (q : quote = '"' ∨ quote = '\'') {t u : List Char} :
    enclosed quote t = enclosed quote u ↔ t = u := by
  refine ⟨fun same => ?_, congrArg _⟩
  have inside : escape quote t = escape quote u := List.append_cancel_right (List.cons.inj same).2
  have back := congrArg unescape inside
  rw [unescape_escape q, unescape_escape q] at back
  exact Except.ok.inj back

theorem enclosed_append (quote : Char) (t rest : List Char) :
    enclosed quote t ++ rest = quote :: (escape quote t ++ quote :: rest) := by
  simp [enclosed]

/-- A text between quotes is balanced, and its quote alone can be a stop. -/
theorem clear_enclosed (q : quote = '"' ∨ quote = '\'') (t : List Char) (free : quote ∉ stops) :
    Clear opens stops (enclosed quote t) :=
  clear_quoted q (throughQuote?_escape q t []) free

/-- Inside of brackets no stop counts. -/
theorem through_enclosed (q : quote = '"' ∨ quote = '\'') (t stack : List Char) (goes : stack = [] → quote ∉ stops) :
    (⟨stack, .outside⟩ : Nesting).through opens stops (enclosed quote t) = some ⟨stack, .outside⟩ := by
  cases stack with
  | nil => exact clear_enclosed q t (goes rfl)
  | cons bracket stack =>
    have walk : Clear opens [] (enclosed quote t) := clear_enclosed q t List.not_mem_nil
    exact Nesting.through_deeper (List.cons_ne_nil bracket stack) walk

/-- A scan passes a text between quotes as a whole, unless it ends in front of it. -/
theorem scanFrom_enclosed (q : quote = '"' ∨ quote = '\'') (t stack rest : List Char) :
    scanFrom opens stops ⟨stack, .outside⟩ (enclosed quote t ++ rest) =
      if stack = [] ∧ quote ∈ stops then .ok ([], enclosed quote t ++ rest)
      else (scanFrom opens stops ⟨stack, .outside⟩ rest).map (behind (enclosed quote t)) := by
  split
  · rename_i stop
    obtain ⟨rfl, isStop⟩ := stop
    rw [enclosed_append, scanFrom, if_pos ⟨rfl, isStop⟩]
  · rename_i goes
    exact scanFrom_through (through_enclosed q t stack fun top isStop => goes ⟨top, isStop⟩) rest

/-- The search for a closing bracket passes a text between quotes as a whole. -/
theorem closeFrom_enclosed (q : quote = '"' ∨ quote = '\'') (t : List Char) (wanted bracket : Char)
    (stack rest : List Char) :
    closeFrom wanted ⟨bracket :: stack, .outside⟩ (enclosed quote t ++ rest) =
      (closeFrom wanted ⟨bracket :: stack, .outside⟩ rest).map (behind (enclosed quote t)) := by
  have walk : Clear brackets [] (enclosed quote t) := clear_enclosed q t List.not_mem_nil
  exact closeFrom_through wanted (List.cons_ne_nil bracket stack) walk rest

/-! ### Values -/

/-- What a text between quotes is as the value of an annotation: a string by its text, a character as it is
written. -/
def enclosedValue (quote : Char) (t : List Char) : ElementValue :=
  if quote = '"' then .string (String.ofList t) else .literal (String.ofList (enclosed quote t))

/-- The reader of values takes a text between quotes as a whole. -/
theorem readValue_enclosed (q : quote = '"' ∨ quote = '\'') (t rest : List Char) (depth : Nat) :
    Annotated.readValue (depth + 1) (enclosed quote t ++ rest) = .ok (enclosedValue quote t, rest) := by
  have inside := throughQuote?_escape q t rest
  have back := unescape_escape q t
  rw [enclosed_append]
  rcases q with rfl | rfl
  · simp [Annotated.readValue, dropSpaces, Annotated.stringValue, inside, back, enclosedValue]
  · simp [Annotated.readValue, dropSpaces, Annotated.characterValue, inside, enclosedValue, enclosed]

theorem ascii_of_isPlain {c : Char} (h : isPlain c) : c.toNat < 0x80 := by
  simp only [isPlain, Bool.and_eq_true, decide_eq_true_eq] at h
  exact lt_of_le_of_lt h.2 (by decide)

/-! ### Main statement -/

/-- **A text between quotes stays in one piece.** Escaped for its quotes a text is printable ASCII and is read
back. Whatever follows, the literal that begins at its first quote ends at its last one, which has as many bytes
before it as the escaped text has characters, and one. Scans, searches for a closing bracket and the reader of
values go on behind it as if it were not there. -/
theorem enclosed_taken_whole (q : quote = '"' ∨ quote = '\'') (t : List Char) :
    (∀ c ∈ escape quote t, isPlain c) ∧ unescape (escape quote t) = .ok t ∧
      byteLength (quote :: escape quote t) = 1 + (escape quote t).length ∧
      ∀ rest,
        throughQuote? quote (escape quote t ++ quote :: rest) = some (escape quote t, rest) ∧
        (∀ opens stops stack, scanFrom opens stops ⟨stack, .outside⟩ (enclosed quote t ++ rest) =
          if stack = [] ∧ quote ∈ stops then .ok ([], enclosed quote t ++ rest)
          else (scanFrom opens stops ⟨stack, .outside⟩ rest).map (behind (enclosed quote t))) ∧
        (∀ wanted bracket stack, closeFrom wanted ⟨bracket :: stack, .outside⟩ (enclosed quote t ++ rest) =
          (closeFrom wanted ⟨bracket :: stack, .outside⟩ rest).map (behind (enclosed quote t))) ∧
        ∀ depth, Annotated.readValue (depth + 1) (enclosed quote t ++ rest) =
          .ok (enclosedValue quote t, rest) := by
  have plain : ∀ c ∈ escape quote t, isPlain c := fun c mem => isPlain_of_mem_escape q mem
  have first : quote.utf8Size = 1 := by rcases q with rfl | rfl <;> rfl
  have bytes : byteLength (escape quote t) = (escape quote t).length :=
    byteLength_of_ascii fun c mem => ascii_of_isPlain (plain c mem)
  refine ⟨plain, unescape_escape q t, by rw [byteLength_cons, first, bytes], fun rest => ?_⟩
  exact ⟨throughQuote?_escape q t rest, fun opens stops stack => scanFrom_enclosed q t stack rest,
    fun wanted bracket stack => closeFrom_enclosed q t wanted bracket stack rest,
    fun depth => readValue_enclosed q t rest depth⟩

/-- A quote, a backslash and an accented letter, escaped and passed on the way to a comma. -/
theorem enclosed_taken_whole_accented :
    escape '"' "\"\\é".toList = "\\\"\\\\\\u00e9".toList ∧
      unescape "\\\"\\\\\\u00e9".toList = .ok "\"\\é".toList ∧
      scanTo [','] (enclosed '"' "\"\\é".toList ++ ",x".toList) =
        .ok ("\"\\\"\\\\\\u00e9\"".toList, ",x".toList) := by
  have spelled : escape '"' "\"\\é".toList = "\\\"\\\\\\u00e9".toList := by decide
  obtain ⟨-, back, -, along⟩ := enclosed_taken_whole (.inl rfl) "\"\\é".toList
  obtain ⟨-, scans, -⟩ := along ",x".toList
  rw [spelled] at back
  refine ⟨spelled, back, ?_⟩
  rw [scanTo, Nesting.top, scans, enclosed, spelled]
  decide

end Literal

end ApiSurface
