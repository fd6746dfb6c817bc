import ApiSurface.Annotated.Reading
import ApiSurface.Proofs.Result
import ApiSurface.Proofs.Text.Items
import ApiSurface.Proofs.Text.SingleLine

/-!
The parts of an annotation line, written and read: words and numbers, the place of a type annotation,
names, types of elements and the values that hold no others. For each part there is the shape that a line
gives back. Main statements: a part of that shape is read back in front of any rest that it can be told
from (`target_print`, `name_print`, `elementType_print`, `elementName_print`, `literalValue_print`).
-/

namespace ApiSurface.Annotated

open ApiSurface.Text

/-! ### Words and numbers -/

theorem dropSpaces_of_notMem {cs rest : List Char} (free : ' ' ∉ cs) (filled : cs ≠ []) :
    dropSpaces (cs ++ rest) = cs ++ rest := by
  cases cs with
  | nil => exact absurd rfl filled
  | cons c cs =>
    have differ : c ≠ ' ' := fun same => free (by simp [same])
    simp [dropSpaces, differ]

/-- A word is taken up to the space behind it. -/
theorem word_space {w : List Char} (filled : w ≠ []) (free : ' ' ∉ w) (what : String) (rest : List Char) :
    word what (' ' :: (w ++ ' ' :: rest)) = .ok (w, ' ' :: rest) := by
  have front : ∀ c ∈ w, (!(c == ' ')) = true := by
    intro c mem
    have differ : c ≠ ' ' := fun same => free (same ▸ mem)
    simp [differ]
  have start : dropSpaces (' ' :: (w ++ ' ' :: rest)) = w ++ ' ' :: rest :=
    dropSpaces_of_notMem free filled
  simp only [word, start, cutBefore, List.takeWhile_append_of_pos front,
    List.dropWhile_append_of_pos front]
  simp [filled]

theorem isDigit_of_mem_decimal {n : Nat} {c : Char} (mem : c ∈ decimal n) : c.isDigit :=
  Nat.isDigit_of_mem_toDigits (by decide) (by decide) mem

theorem notMem_decimal {n : Nat} {c : Char} (other : c.isDigit = false) : c ∉ decimal n := by
  intro mem
  rw [isDigit_of_mem_decimal mem] at other
  cases other

/-- A number is read back from its word. -/
theorem number_space {n bound : Nat} (small : n ≤ bound) (what : String) (rest : List Char) :
    number bound what (' ' :: (decimal n ++ ' ' :: rest)) = .ok (n, ' ' :: rest) := by
  simp only [number, word_space (decimal_ne_nil n) (notMem_decimal (by decide)),
    readDecimal?_decimal small]

/-- An index is read back from its word. -/
theorem index_space (i : Option UInt16) (what : String) (rest : List Char) :
    index what (' ' :: (printIndex i ++ ' ' :: rest)) = .ok (i, ' ' :: rest) := by
  cases i with
  | none => simp only [index, printIndex, word_space (w := ['-']) (by decide) (by decide), if_true]
  | some i =>
    have noDash : decimal i.toNat ≠ ['-'] := by
      intro same
      have mem : '-' ∈ decimal i.toNat := by simp [same]
      exact notMem_decimal (by decide) mem
    have small : i.toNat ≤ 0xFFFF := Nat.le_of_lt_succ i.toNat_lt
    simp only [index, printIndex, word_space (decimal_ne_nil _) (notMem_decimal (by decide)), noDash,
      if_false, readDecimal?_decimal small, UInt16.ofNat_toNat]

/-- A place whose path is one word, told from the dash. -/
def SoundPlace (place : Option TypePlace) : Prop :=
  ∀ p ∈ place, ' ' ∉ p.path.toList ∧ p.path ≠ "-"

/-- The target and the place are read back. -/
theorem target_print {place : Option TypePlace} (sound : SoundPlace place) (n : UInt32)
    (rest : List Char) :
    target (printTarget n place ++ ' ' :: rest) = .ok ((n, place), ' ' :: rest) := by
  have small : n.toNat ≤ 0xFFFFFFFF := Nat.le_of_lt_succ n.toNat_lt
  cases place with
  | none =>
    have noPlace : afterLead? placedUseLead (useLead ++ (decimal n.toNat ++ ' ' :: rest)) = none := rfl
    have lead : printTarget n none ++ ' ' :: rest = useLead ++ (decimal n.toNat ++ ' ' :: rest) := by
      simp [printTarget]
    rw [lead, target, noPlace]
    simp only [afterLead?_append, number_space small, ok_bind, UInt32.ofNat_toNat]
    rfl
  | some p =>
    obtain ⟨free, noDash⟩ := sound p rfl
    obtain ⟨targetType, typeIndex, boundIndex, parameterIndex, path⟩ := p
    have typed : targetType.toNat ≤ 0xFF := Nat.le_of_lt_succ targetType.toNat_lt
    have lead : printTarget n (some ⟨targetType, typeIndex, boundIndex, parameterIndex, path⟩) ++ ' ' :: rest =
        placedUseLead ++ (decimal n.toNat ++ ' ' :: (decimal targetType.toNat ++ ' ' :: (printIndex typeIndex ++
          ' ' :: (printIndex boundIndex ++ ' ' :: (printIndex parameterIndex ++
            ' ' :: ((if path.isEmpty then ['-'] else path.toList) ++ ' ' :: rest)))))) := by
      simp [printTarget]
    have taken : word "type path" (' ' :: ((if path.isEmpty then ['-'] else path.toList) ++ ' ' :: rest)) =
        .ok (if path.isEmpty then ['-'] else path.toList, ' ' :: rest) := by
      split
      · exact word_space (by decide) (by decide) _ _
      · rename_i filled
        exact word_space (by simpa using filled) free _ _
    have back : (if (if path.isEmpty then ['-'] else path.toList) = ['-'] then ""
        else String.ofList (if path.isEmpty then ['-'] else path.toList)) = path := by
      by_cases none : path = ""
      · simp [none]
      · have other : path.toList ≠ ['-'] := by
          intro same
          apply noDash
          rw [← String.ofList_toList (s := path), same]
        simp [none, other]
    rw [lead, target]
    simp only [afterLead?_append, number_space small, ok_bind, Annotated.place, number_space typed,
      index_space, taken, back, UInt32.ofNat_toNat, UInt8.ofNat_toNat]
    rfl

/-! ### Names and types -/

/-- A name of an annotation that a line gives back. -/
structure SoundName (n : List Char) : Prop where
  filled : n ≠ []
  trimmed : Trimmed n
  noSpace : ' ' ∉ n
  noParenthesis : '(' ∉ n

theorem name_print {n : List Char} (sound : SoundName n) (rest : List Char) :
    name (' ' :: (n ++ '(' :: rest)) = .ok (n, rest) := by
  have start : dropSpaces (' ' :: (n ++ '(' :: rest)) = n ++ '(' :: rest :=
    dropSpaces_of_notMem sound.noSpace sound.filled
  simp [name, start, cutAt?_singleton sound.noParenthesis, sound.trimmed.trim_eq, sound.filled,
    sound.noSpace]

/-- A type of an element that a line gives back. -/
inductive SoundElementType : List Char → Prop where
  | ofClass {arguments dims : List Char} (closed : throughClose '<' arguments = .ok (arguments, []))
      (square : dimensions dims = (dims, [])) :
      SoundElementType (classTypeLead ++ '<' :: arguments ++ dims)
  | plain {t : List Char} (filled : t ≠ []) (noSpace : ' ' ∉ t) (starts : t.head? ≠ some ')')
      (other : ¬classTypeLead ++ ['<'] <+: t) : SoundElementType t

theorem dimensions_replay {cs dims rest : List Char} (h : dimensions cs = (dims, rest))
    (others : List Char) (stop : ∀ c ∈ others.head?, c ≠ '[') :
    dimensions (dims ++ others) = (dims, others) := by
  fun_induction dimensions cs generalizing dims with
  | case1 cs more rest' inner ih =>
    cases h
    have again := ih inner
    simp [dimensions, again]
  | case2 cs noPair =>
    cases h
    rw [List.nil_append, dimensions]
    rintro more rfl
    exact stop '[' (by simp) rfl

/-- A mark that lacks the next character of a text is in front of it. -/
theorem prefix_of_notMem_append {lead t rest : List Char} {c : Char} (h : lead <+: t ++ c :: rest)
    (other : c ∉ lead) : lead <+: t := by
  rcases List.prefix_or_prefix_of_prefix h (List.prefix_append t (c :: rest)) with short | long
  · exact short
  · obtain ⟨tail, rfl⟩ := long
    rw [List.prefix_append_right_inj] at h
    cases tail with
    | nil => simp
    | cons d tail =>
      obtain ⟨more, whole⟩ := h
      obtain rfl : d = c := by simpa using congrArg List.head? whole
      simp at other

/-- The type of an element is read back in front of a space. -/
theorem elementType_print {t : List Char} (sound : SoundElementType t) (rest : List Char) :
    elementType (t ++ ' ' :: rest) = .ok (t, ' ' :: rest) := by
  cases sound with
  | @ofClass arguments dims closed square =>
    have lead : classTypeLead ++ '<' :: arguments ++ dims ++ ' ' :: rest =
        (classTypeLead ++ ['<']) ++ (arguments ++ (dims ++ ' ' :: rest)) := by
      simp
    have squares : dimensions (dims ++ ' ' :: rest) = (dims, ' ' :: rest) :=
      dimensions_replay square _ (by simp)
    rw [lead, elementType, afterLead?_append]
    simp only [throughClose_replay closed, squares]
  | plain filled noSpace starts other =>
    have noLead : afterLead? (classTypeLead ++ ['<']) (t ++ ' ' :: rest) = none :=
      isPrefixOf?_eq_none_iff.2 fun h => other (prefix_of_notMem_append h (by decide))
    rw [elementType, noLead]
    simp only [cutAt?_singleton noSpace]

theorem SoundElementType.starts {t : List Char} (sound : SoundElementType t) :
    ∃ c more, t = c :: more ∧ c ≠ ' ' ∧ c ≠ ')' := by
  cases sound with
  | ofClass closed square => exact ⟨'j', _, rfl, by decide, by decide⟩
  | plain filled noSpace starts other =>
    cases t with
    | nil => exact absurd rfl filled
    | cons c more =>
      exact ⟨c, more, rfl, fun same => noSpace (by simp [same]), fun same => starts (by simp [same])⟩

/-- A name of an element that a line gives back. -/
structure SoundElementName (n : List Char) : Prop where
  filled : n ≠ []
  trimmed : Trimmed n
  noSpace : ' ' ∉ n
  noEquals : '=' ∉ n

theorem trim_cons_space (cs : List Char) : trim (' ' :: cs) = trim cs := rfl

theorem elementName_print {n : List Char} (sound : SoundElementName n) (type rest : List Char) :
    elementName type (' ' :: (n ++ '=' :: rest)) = .ok (n, rest) := by
  have free : '=' ∉ ' ' :: n := by simp [sound.noEquals]
  have cut : cutAt? ['='] (' ' :: (n ++ '=' :: rest)) = some (' ' :: n, rest) := by
    simpa using cutAt?_singleton free
  simp [elementName, cut, trim_cons_space, sound.trimmed.trim_eq, sound.filled, sound.noSpace]

/-! ### Values that hold no others -/

/-- What ends a value. -/
def valueEnds : List Char := [',', ')', ']']

/-- A literal that a line gives back: a character, or text up to the end of the value. -/
inductive SoundLiteral : List Char → Prop where
  | character {inside : List Char}
      (closed : throughQuote? '\'' (inside ++ ['\'']) = some (inside, [])) :
      SoundLiteral ('\'' :: inside ++ ['\''])
  | plain {c : Char} {more : List Char} (starts : c ∉ [' ', '[', '"', '\''])
      (clear : Clear brackets valueEnds (c :: more))
      (ends : ∀ d ∈ (c :: more).getLast?, isBlank d = false) (noUse : beginsUse (c :: more) = false) :
      SoundLiteral (c :: more)

theorem beginsUse_append {t rest : List Char} {c : Char} (h : beginsUse t = false) (stop : c ∈ valueEnds) :
    beginsUse (t ++ c :: rest) = false := by
  have others : c ∉ useLead ∧ c ∉ placedUseLead := by
    simp only [valueEnds, List.mem_cons, List.not_mem_nil, or_false] at stop
    rcases stop with rfl | rfl | rfl <;> decide
  simp only [beginsUse, Bool.or_eq_false_iff, Option.isSome_eq_false_iff, Option.isNone_iff_eq_none,
    afterLead?, isPrefixOf?_eq_none_iff] at h ⊢
  exact ⟨fun lead => h.1 (prefix_of_notMem_append lead others.1),
    fun lead => h.2 (prefix_of_notMem_append lead others.2)⟩

/-- A literal is read back in front of the end of its value. -/
theorem literalValue_print {t rest : List Char} {c : Char} (sound : SoundLiteral t)
    (stop : c ∈ valueEnds) (depth : Nat) :
    readValue (depth + 1) (t ++ c :: rest) = .ok (.literal (String.ofList t), c :: rest) := by
  cases sound with
  | @character inside closed =>
    have start : '\'' :: inside ++ ['\''] ++ c :: rest = '\'' :: (inside ++ '\'' :: c :: rest) := by simp
    have taken := throughQuote?_replay closed (c :: rest)
    rw [start, readValue]
    simp [dropSpaces, characterValue, taken]
  | @plain d more starts clear ends noUse =>
    simp only [List.mem_cons, List.not_mem_nil, or_false, not_or] at starts
    obtain ⟨h1, h2, h3, h4⟩ := starts
    have start : dropSpaces (d :: more ++ c :: rest) = d :: (more ++ c :: rest) := by
      simp [dropSpaces, h1]
    have noUse : beginsUse (d :: (more ++ c :: rest)) = false := beginsUse_append noUse stop
    have scanned : scanTo [',', ')', ']'] (d :: (more ++ c :: rest)) = .ok (d :: more, c :: rest) :=
      scanTo_eq_ok_iff.2 ⟨rfl, clear, by simpa [valueEnds] using stop⟩
    have kept : trimEnd (d :: more) = d :: more := trimEnd_eq_self ends
    rw [readValue, start]
    simp [h2, h3, h4, noUse, literalValue, scanned, kept]

/-- A string is read back. -/
theorem stringValue_print (text : String) (rest : List Char) :
    stringValue (Literal.escape '"' text.toList ++ '"' :: rest) = .ok (.string text, rest) := by
  simp [stringValue, throughQuote?_escape (.inl rfl), Literal.unescape_escape (.inl rfl)]

end ApiSurface.Annotated
