import ApiSurface.Literal.Escape
import ApiSurface.Proofs.Text.Quotes
import ApiSurface.Text.Blank

/-!
Texts that stay on one line when they are written. Main statements: such texts are closed under parts and
concatenation, an escaped text is one whatever it stands for (`singleLine_escape`), and the end of a line
is taken off exactly (`trimLineEnd_append`).
-/

namespace ApiSurface.Text

/-- A text without line feeds and carriage returns. -/
def SingleLine (t : List Char) : Prop := ∀ c ∈ t, c ≠ '\n' ∧ c ≠ '\r'

instance (t : List Char) : Decidable (SingleLine t) := inferInstanceAs (Decidable (∀ c ∈ t, _))

namespace SingleLine

@[simp] theorem nil : SingleLine [] := by simp [SingleLine]

@[simp] theorem append_iff {a b : List Char} : SingleLine (a ++ b) ↔ SingleLine a ∧ SingleLine b := by
  simp only [SingleLine, List.mem_append]
  exact ⟨fun h => ⟨fun c mem => h c (.inl mem), fun c mem => h c (.inr mem)⟩,
    fun h c mem => mem.elim (h.1 c) (h.2 c)⟩

@[simp] theorem cons_iff {c : Char} {t : List Char} :
    SingleLine (c :: t) ↔ (c ≠ '\n' ∧ c ≠ '\r') ∧ SingleLine t := by
  simp [SingleLine]

theorem subset {a b : List Char} (h : SingleLine b) (sub : a ⊆ b) : SingleLine a :=
  fun c mem => h c (sub mem)

theorem of_part {a b : List Char} (h : SingleLine b) (part : a <:+: b) : SingleLine a :=
  h.subset part.subset

/-- Joined texts stay on one line with their separator. -/
theorem join {separator : List Char} {ps : List (List Char)} (hs : SingleLine separator)
    (h : ∀ p ∈ ps, SingleLine p) : SingleLine (Text.join separator ps) := by
  intro c mem
  rcases mem_or_of_mem_join mem with inside | ⟨p, inList, inside⟩
  · exact hs c inside
  · exact h p inList c inside

theorem flatMap {α : Type} {f : α → List Char} {l : List α} (h : ∀ a ∈ l, SingleLine (f a)) :
    SingleLine (l.flatMap f) := by
  intro c mem
  obtain ⟨a, inList, inside⟩ := List.mem_flatMap.1 mem
  exact h a inList c inside

/-- Printable text stays on one line. -/
theorem of_isPlain {t : List Char} (h : ∀ c ∈ t, Literal.isPlain c) : SingleLine t := by
  intro c mem
  have plain := h c mem
  constructor <;> rintro rfl <;> revert plain <;> decide

end SingleLine

theorem isPlain_of_mem_numericEscape {c d : Char} (mem : d ∈ Literal.numericEscape c) : Literal.isPlain d := by
  simp only [Literal.numericEscape, List.mem_flatMap, Literal.unitEscape, fourHex, List.mem_cons,
    List.not_mem_nil, or_false] at mem
  obtain ⟨u, -, rfl | rfl | rfl | rfl | rfl | rfl⟩ := mem
  · decide
  · decide
  all_goals exact (digit_plain _).1

theorem isPlain_of_mem_escapeChar {quote : Char} (q : quote = '"' ∨ quote = '\'') {c d : Char}
    (mem : d ∈ Literal.escapeChar quote c) : Literal.isPlain d := by
  unfold Literal.escapeChar at mem
  split_ifs at mem with h1 h2 h3 h4 h5 h6 h7 h8
  all_goals
    try
      simp only [List.mem_cons, List.not_mem_nil, or_false] at mem
      rcases mem with rfl | rfl <;> decide
  · simp only [List.mem_cons, List.not_mem_nil, or_false] at mem
    subst h7
    rcases mem with rfl | rfl
    · decide
    · rcases q with rfl | rfl <;> decide
  · obtain rfl : d = c := by simpa using mem
    exact h8
  · exact isPlain_of_mem_numericEscape mem

/-- An escaped text is printable. -/
theorem isPlain_of_mem_escape {quote : Char} (q : quote = '"' ∨ quote = '\'') {t : List Char} {d : Char}
    (mem : d ∈ Literal.escape quote t) : Literal.isPlain d := by
  obtain ⟨c, -, inside⟩ := List.mem_flatMap.1 mem
  exact isPlain_of_mem_escapeChar q inside

/-- An escaped text stays on one line, whatever it stands for. -/
theorem singleLine_escape {quote : Char} (q : quote = '"' ∨ quote = '\'') (t : List Char) :
    SingleLine (Literal.escape quote t) :=
  .of_isPlain fun _ mem => isPlain_of_mem_escape q mem

/-- The end of a line is taken off, and nothing else. -/
theorem trimLineEnd_append {t : List Char} (h : SingleLine t) : trimLineEnd (t ++ ['\n']) = t := by
  rcases List.eq_nil_or_concat' t with rfl | ⟨front, c, rfl⟩
  · rfl
  · have last := h c (by simp)
    simp [trimLineEnd, last]

end ApiSurface.Text
