/-!
Cutting text at fixed marks. All readers of this library work on lists of characters and hand on what
is left, so that a cut can never fall inside a character; a place in a text is reported as the number of
bytes before it, which is `byteLength` of the part already read. Main statements: a cut at a mark loses
nothing (`eq_of_cutAt`), and the pieces of a text joined again by their separator are the text
(`join_pieces`).
-/

namespace ApiSurface.Text

/-- How many bytes the text takes in UTF-8. -/
def byteLength : List Char → Nat
  | [] => 0
  | c :: cs => c.utf8Size + byteLength cs

/-- What is before and what is after the first place where `mark` occurs. -/
def cutAt? (mark : List Char) : List Char → Option (List Char × List Char)
  | [] => if mark.isEmpty then some ([], []) else none
  | c :: cs =>
    match mark.isPrefixOf? (c :: cs) with
    | some rest => some ([], rest)
    | none => (cutAt? mark cs).map fun (before, after) => (c :: before, after)

/-- The pieces of the text between the separators; there is always one more than separators. -/
def pieces (separator : Char) : List Char → List (List Char)
  | [] => [[]]
  | c :: cs =>
    if c = separator then [] :: pieces separator cs
    else
      match pieces separator cs with
      | [] => [[c]]
      | first :: more => (c :: first) :: more

/-- The piece after the last separator, or the whole text. -/
def lastPiece (separator : Char) (cs : List Char) : List Char :=
  ((pieces separator cs).getLast?).getD cs

/-- The pieces with the separator between any two. -/
def join (separator : List Char) (pieces : List (List Char)) : List Char :=
  List.intercalate separator pieces

/-- The text up to the first character of the class, and the rest from there. -/
def cutBefore (stop : Char → Bool) (cs : List Char) : List Char × List Char :=
  (cs.takeWhile fun c => !stop c, cs.dropWhile fun c => !stop c)

/-- The text without the spaces it begins with; other blanks stay. -/
def dropSpaces (cs : List Char) : List Char := cs.dropWhile (· == ' ')

/-- What remains when the text begins with `lead`. -/
def afterLead? (lead cs : List Char) : Option (List Char) := lead.isPrefixOf? cs

/-- What remains when the text ends with `tail`. -/
def beforeTail? (tail cs : List Char) : Option (List Char) := tail.isSuffixOf? cs

/-- Whether `part` occurs somewhere in the text. -/
def occurs (part cs : List Char) : Bool := (cutAt? part cs).isSome

/-- Every occurrence of the one character replaced by the other. -/
def replaceChar (old new : Char) (cs : List Char) : List Char :=
  cs.map fun c => if c = old then new else c

/-! ### Laws -/

@[simp] theorem byteLength_nil : byteLength [] = 0 := rfl

@[simp] theorem byteLength_cons (c : Char) (cs : List Char) :
    byteLength (c :: cs) = c.utf8Size + byteLength cs := rfl

@[simp] theorem byteLength_append (a b : List Char) :
    byteLength (a ++ b) = byteLength a + byteLength b := by
  induction a with
  | nil => simp
  | cons c a ih => simp [ih, Nat.add_assoc]

theorem length_dropSpaces_le (cs : List Char) : (dropSpaces cs).length ≤ cs.length :=
  (List.dropWhile_sublist _).length_le

theorem isPrefixOf?_cons (m c : Char) (mark cs : List Char) :
    (m :: mark).isPrefixOf? (c :: cs) = if m == c then mark.isPrefixOf? cs else none := rfl

theorem isPrefixOf?_append (lead rest : List Char) : lead.isPrefixOf? (lead ++ rest) = some rest := by
  induction lead with
  | nil => rfl
  | cons c lead ih => simp [isPrefixOf?_cons, ih]

theorem beforeTail?_append (cs tail : List Char) : beforeTail? tail (cs ++ tail) = some cs := by
  have reversed : beforeTail? tail (cs ++ tail) =
      (tail.reverse.isPrefixOf? (cs ++ tail).reverse).map List.reverse := rfl
  simp [reversed, isPrefixOf?_append]

/-- One character for another, and back again, changes nothing where the other did not occur. -/
theorem replaceChar_replaceChar {a b : Char} {cs : List Char} (absent : b ∉ cs) :
    replaceChar b a (replaceChar a b cs) = cs := by
  induction cs with
  | nil => rfl
  | cons c cs ih =>
    have ⟨differ, absent⟩ := List.ne_and_not_mem_of_not_mem_cons absent
    by_cases same : c = a
    · subst same
      simpa [replaceChar] using ih absent
    · simpa [replaceChar, same, Ne.symm differ] using ih absent

theorem replaceChar_of_notMem {a b : Char} {cs : List Char} (absent : a ∉ cs) : replaceChar a b cs = cs := by
  induction cs with
  | nil => rfl
  | cons c cs ih =>
    have ⟨differ, absent⟩ := List.ne_and_not_mem_of_not_mem_cons absent
    simpa [replaceChar, Ne.symm differ] using ih absent

/-- A text is the mark it begins with and what remains. -/
theorem eq_of_isPrefixOf? {mark cs rest : List Char} (h : mark.isPrefixOf? cs = some rest) :
    cs = mark ++ rest := by
  induction mark generalizing cs with
  | nil => exact Option.some.inj h
  | cons m mark ih =>
    cases cs with
    | nil => cases h
    | cons c cs =>
      rw [isPrefixOf?_cons] at h
      split at h
      · rename_i same
        rw [beq_iff_eq] at same
        rw [same, ih h]
        rfl
      · cases h

/-- A cut loses nothing but moves nothing either: what was before, the mark and what is after. -/
theorem eq_of_cutAt {mark cs before after : List Char} (h : cutAt? mark cs = some (before, after)) :
    cs = before ++ mark ++ after := by
  induction cs generalizing before with
  | nil =>
    simp only [cutAt?] at h
    split at h
    · rename_i empty
      simp only [Option.some.injEq, Prod.mk.injEq] at h
      obtain ⟨rfl, rfl⟩ := h
      simp_all
    · cases h
  | cons c cs ih =>
    simp only [cutAt?] at h
    split at h
    · rename_i rest found
      simp only [Option.some.injEq, Prod.mk.injEq] at h
      obtain ⟨rfl, rfl⟩ := h
      simpa using eq_of_isPrefixOf? found
    · simp only [Option.map_eq_some_iff, Prod.exists, Prod.mk.injEq] at h
      obtain ⟨b, a, found, rfl, rfl⟩ := h
      simpa using ih found

/-- There is always a first piece. -/
theorem pieces_ne_nil (separator : Char) (cs : List Char) : pieces separator cs ≠ [] := by
  cases cs with
  | nil => simp [pieces]
  | cons c cs =>
    simp only [pieces]
    split
    · simp
    · split <;> simp

/-- The pieces with their separator between them are the text again. -/
theorem join_pieces (separator : Char) (cs : List Char) :
    join [separator] (pieces separator cs) = cs := by
  induction cs with
  | nil => rfl
  | cons c cs ih =>
    simp only [pieces]
    split
    · rename_i same
      subst same
      cases found : pieces c cs with
      | nil => exact absurd found (pieces_ne_nil _ _)
      | cons first more =>
        rw [found] at ih
        simp [join, List.intercalate, List.intersperse] at ih ⊢
        exact ih
    · cases found : pieces separator cs with
      | nil => exact absurd found (pieces_ne_nil _ _)
      | cons first more =>
        rw [found] at ih
        cases more <;> simp [join, List.intercalate, List.intersperse] at ih ⊢ <;> exact ih

end ApiSurface.Text
