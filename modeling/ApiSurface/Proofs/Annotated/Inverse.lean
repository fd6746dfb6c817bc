import ApiSurface.Proofs.Annotated.Accepted

/-!
Printing and reading annotations are inverse to each other. Which parts a line gives back is put in terms of
the characters of each part: names and types without blanks, paths that are one word, literals that a scan
takes whole. Main statement: an annotation made of such parts, nested to any depth, is read back from its
line and from the front of any text, and whatever is read from a line is such an annotation
(`printed_use_read_back`).
-/

namespace ApiSurface.Annotated

open ApiSurface.Text

/-! ### Parts that a line gives back -/

theorem trimmed_of_noBlank {t : List Char} (free : ∀ c ∈ t, isBlank c = false) : Trimmed t :=
  ⟨fun c mem => free c (List.mem_of_mem_head? mem), fun c mem => free c (List.mem_of_mem_getLast? mem)⟩

theorem noSpace_of_noBlank {t : List Char} (free : ∀ c ∈ t, isBlank c = false) : ' ' ∉ t :=
  fun mem => absurd (free ' ' mem) (by decide)

/-- A name without blanks and parentheses. -/
theorem SoundName.of_noBlank {n : List Char} (filled : n ≠ []) (free : ∀ c ∈ n, isBlank c = false)
    (noParenthesis : '(' ∉ n) : SoundName n :=
  ⟨filled, trimmed_of_noBlank free, noSpace_of_noBlank free, noParenthesis⟩

/-- A name of an element without blanks and equals signs. -/
theorem SoundElementName.of_noBlank {n : List Char} (filled : n ≠ []) (free : ∀ c ∈ n, isBlank c = false)
    (noEquals : '=' ∉ n) : SoundElementName n :=
  ⟨filled, trimmed_of_noBlank free, noSpace_of_noBlank free, noEquals⟩

/-- A type without blanks that is no class with arguments. -/
theorem SoundElementType.of_noBlank {t : List Char} (filled : t ≠ []) (free : ∀ c ∈ t, isBlank c = false)
    (starts : t.head? ≠ some ')') (other : ¬classTypeLead ++ ['<'] <+: t) : SoundElementType t :=
  .plain filled (noSpace_of_noBlank free) starts other

/-- Pairs of square brackets. -/
theorem dimensions_replicate (n : Nat) :
    dimensions (List.replicate n ['[', ']']).flatten = ((List.replicate n ['[', ']']).flatten, []) := by
  induction n with
  | zero => rfl
  | succ n ih =>
    have front : (List.replicate (n + 1) ['[', ']']).flatten =
        '[' :: ']' :: (List.replicate n ['[', ']']).flatten := by
      rw [List.replicate_succ, List.flatten_cons]
      rfl
    rw [front, dimensions, ih]

/-- The type of a class with arguments, up to the bracket that closes them, and arrays of it. -/
theorem SoundElementType.of_class {arguments : List Char}
    (closed : throughClose '<' arguments = .ok (arguments, [])) (n : Nat) :
    SoundElementType (classTypeLead ++ '<' :: arguments ++ (List.replicate n ['[', ']']).flatten) :=
  .ofClass closed (dimensions_replicate n)

/-- A literal that a scan for the end of a value takes whole, and that begins like no other value. -/
theorem SoundLiteral.of_scan {t : List Char} (filled : t ≠ []) (trimmed : Trimmed t)
    (taken : scanTo valueEnds t = .ok (t, [])) (starts : ∀ c ∈ t.head?, c ∉ ['[', '"', '\''])
    (noUse : beginsUse t = false) : SoundLiteral t := by
  cases t with
  | nil => exact absurd rfl filled
  | cons c more =>
    have noSpace : c ≠ ' ' := fun same => absurd (trimmed.1 c rfl) (by simp [same, show isBlank ' ' = true by decide])
    have others := starts c rfl
    exact .plain (by simpa [noSpace] using others) (scanTo_eq_ok_iff.1 taken).2.1 trimmed.2 noUse

/-! ### Both ways -/

/-- An annotation whose parts a line gives back, nested to any depth, is read back from its line. In front of
any text it is taken off again, with as many bytes as its line has. Every annotation that was read from a
line is read back from its own line. -/
theorem printed_use_read_back (use : AnnotationUse) :
    (SoundUse use → ofLine (printUse use) = .ok use ∧
      ∀ rest, takeUse (printUse use ++ rest) = .ok (use, rest) ∧
        byteLength (printUse use ++ rest) - byteLength rest = byteLength (printUse use)) ∧
    ∀ line, ofLine line = .ok use → ofLine (printUse use) = .ok use := by
  refine ⟨fun sound => ⟨ofLine_printUse sound, fun rest => ⟨takeUse_printUse sound rest, ?_⟩⟩,
    fun line read => ?_⟩
  · rw [byteLength_append, Nat.add_sub_cancel]
  · exact ofLine_printUse (of_ofLine read).1

/-- A type annotation that holds a class, an array of strings with every delimiter in them and an annotation
with a character. -/
def delimiterUse : AnnotationUse :=
  ⟨2, "a.Outer", [
    ⟨"java.lang.Class<? extends java.util.Map<K, V> >[]", "of", .array []⟩,
    ⟨"java.lang.String[]", "texts", .array [.string "\"),]=('", .string "anno 0 b.B()\\"]⟩,
    ⟨"a.Inner", "inner", .nested ⟨0, "a.Inner", [
      ⟨"char", "mark", .literal "'\\''"⟩, ⟨"int", "size", .literal "f(1, [2])"⟩], none⟩⟩],
    some ⟨16, none, some 3, none, "1:0/3:1"⟩⟩

theorem soundUse_delimiterUse : SoundUse delimiterUse := by
  have outer : SoundName "a.Outer".toList := .of_noBlank (by decide) (by decide) (by decide)
  have inner : SoundName "a.Inner".toList := .of_noBlank (by decide) (by decide) (by decide)
  have classes : SoundElementType "java.lang.Class<? extends java.util.Map<K, V> >[]".toList := by
    have closed : throughClose '<' "? extends java.util.Map<K, V> >".toList =
        .ok ("? extends java.util.Map<K, V> >".toList, []) := by decide
    exact .of_class closed 1
  have plain : ∀ type ∈ ["java.lang.String[]", "a.Inner", "char", "int"], SoundElementType type.toList := by
    intro type mem
    simp only [List.mem_cons, List.not_mem_nil, or_false] at mem
    rcases mem with rfl | rfl | rfl | rfl <;> exact .of_noBlank (by decide) (by decide) (by decide) (by decide)
  have named : ∀ name ∈ ["of", "texts", "inner", "mark", "size"], SoundElementName name.toList := by
    intro name mem
    simp only [List.mem_cons, List.not_mem_nil, or_false] at mem
    rcases mem with rfl | rfl | rfl | rfl | rfl <;> exact .of_noBlank (by decide) (by decide) (by decide)
  have mark : SoundLiteral "'\\''".toList := by
    have closed : throughQuote? '\'' (['\\', '\''] ++ ['\'']) = some (['\\', '\''], []) := by decide
    exact .character closed
  have size : SoundLiteral "f(1, [2])".toList :=
    .of_scan (by decide) (by decide) (by decide) (by decide) (by decide)
  have place : SoundPlace delimiterUse.place := by simp [SoundPlace, delimiterUse]
  have nested : SoundPlace none := by simp [SoundPlace]
  exact ⟨outer, place, ⟨classes, named _ (by decide), trivial⟩,
    ⟨plain _ (by decide), named _ (by decide), trivial, trivial, trivial⟩,
    ⟨plain _ (by decide), named _ (by decide), inner, nested,
      ⟨plain _ (by decide), named _ (by decide), mark⟩, ⟨plain _ (by decide), named _ (by decide), size⟩, trivial⟩,
    trivial⟩

theorem delimiterUse_read_back :
    SoundUse delimiterUse ∧ ofLine (printUse delimiterUse) = .ok delimiterUse ∧
      takeUse (printUse delimiterUse ++ [',', '"', ')']) = .ok (delimiterUse, [',', '"', ')']) :=
  have both := printed_use_read_back delimiterUse
  ⟨soundUse_delimiterUse, (both.1 soundUse_delimiterUse).1, ((both.1 soundUse_delimiterUse).2 _).1⟩

end ApiSurface.Annotated
