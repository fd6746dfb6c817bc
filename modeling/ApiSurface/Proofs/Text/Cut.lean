import Mathlib
import ApiSurface.Text.Basic

/-!
Joining and cutting undo each other. Main statements: pieces without their separator are cut apart where
they were joined (`pieces_join`), and a text is cut at the first place of a mark (`cutAt?_eq_some_iff`),
if there is one (`cutAt?_eq_none_iff`).
-/

namespace ApiSurface.Text

/-! ### Deciding along texts -/

/-- What holds of all characters of a text is decided along the text. -/
instance decidableForallMem (p : Char → Prop) [DecidablePred p] (t : List Char) :
    Decidable (∀ c ∈ t, p c) := List.decidableBAll p t

instance decidableForallMemOption (p : Char → Prop) [DecidablePred p] (o : Option Char) :
    Decidable (∀ c ∈ o, p c) := Option.decidableForallMem o

/-! ### Fronts of texts -/

/-- A text is cut where a character of the class comes for the first time. -/
theorem cutBefore_append {stop : Char → Bool} {front rest : List Char} (free : ∀ c ∈ front, stop c = false)
    (next : ∀ c ∈ rest.head?, stop c) : cutBefore stop (front ++ rest) = (front, rest) := by
  have goes : ∀ c ∈ front, (!stop c) = true := fun c mem => by simp [free c mem]
  simp only [cutBefore, List.takeWhile_append_of_pos goes, List.dropWhile_append_of_pos goes]
  cases rest with
  | nil => simp
  | cons c rest => simp [next c (by simp)]

/-! ### Joined pieces -/

@[simp] theorem join_nil (separator : List Char) : join separator [] = [] := rfl

@[simp] theorem join_singleton (separator piece : List Char) : join separator [piece] = piece := by
  simp [join, List.intercalate]

@[simp] theorem join_cons_cons (separator a b : List Char) (more : List (List Char)) :
    join separator (a :: b :: more) = a ++ separator ++ join separator (b :: more) := by
  simp [join, List.intercalate, List.intersperse]

/-- A character in front of the first piece. -/
theorem join_cons_char (separator : List Char) (c : Char) (first : List Char)
    (more : List (List Char)) :
    join separator ((c :: first) :: more) = c :: join separator (first :: more) := by
  cases more <;> simp

/-- The first piece, and each further one behind the separator. -/
theorem join_eq_append_flatMap (c : Char) (p : List Char) (ps : List (List Char)) :
    join [c] (p :: ps) = p ++ ps.flatMap (c :: ·) := by
  induction ps generalizing p with
  | nil => simp
  | cons q ps ih => simp [ih q]

/-- Joined pieces end with the last of them. -/
theorem exists_join_concat (separator : List Char) (ps : List (List Char)) (p : List Char) :
    ∃ front, join separator (ps ++ [p]) = front ++ p := by
  induction ps with
  | nil => exact ⟨[], by simp⟩
  | cons q ps ih =>
    obtain ⟨front, ends⟩ := ih
    refine ⟨q ++ separator ++ front, ?_⟩
    cases ps <;> simp_all [join_cons_cons]

/-- The characters of a joined text are those of the separator and of the pieces. -/
theorem mem_or_of_mem_join {separator : List Char} {ps : List (List Char)} {c : Char}
    (h : c ∈ join separator ps) : c ∈ separator ∨ ∃ p ∈ ps, c ∈ p := by
  induction ps with
  | nil => cases h
  | cons p ps ih =>
    cases ps with
    | nil => exact .inr ⟨p, by simp, by simpa using h⟩
    | cons q ps =>
      rw [join_cons_cons, List.mem_append, List.mem_append] at h
      rcases h with (h | h) | h
      · exact .inr ⟨p, by simp, h⟩
      · exact .inl h
      · rcases ih h with h | ⟨r, mem, h⟩
        · exact .inl h
        · exact .inr ⟨r, by simp [mem], h⟩

theorem mem_join_of_mem {separator : List Char} {ps : List (List Char)} {p : List Char} {c : Char}
    (mem : p ∈ ps) (h : c ∈ p) : c ∈ join separator ps := by
  induction ps with
  | nil => cases mem
  | cons q ps ih =>
    cases ps with
    | nil =>
      obtain rfl : p = q := by simpa using mem
      simpa using h
    | cons r ps =>
      rw [join_cons_cons, List.mem_append, List.mem_append]
      rcases List.mem_cons.1 mem with rfl | mem
      · exact .inl (.inl h)
      · exact .inr (ih mem)

/-- Pieces joined by another mark. -/
theorem replaceChar_join {a b : Char} {ps : List (List Char)} (free : ∀ p ∈ ps, a ∉ p) :
    replaceChar a b (join [a] ps) = join [b] ps := by
  induction ps with
  | nil => rfl
  | cons p ps ih =>
    have first : replaceChar a b p = p := replaceChar_of_notMem (free p (by simp))
    cases ps with
    | nil => simpa using first
    | cons q ps =>
      have later := ih fun r mem => free r (by simp [mem])
      rw [join_cons_cons, join_cons_cons, ← later]
      simp only [replaceChar, List.map_append, List.map_cons, List.map_nil, if_true] at first ⊢
      rw [first]

/-- A text without the separator is one piece. -/
theorem pieces_of_notMem {separator : Char} {p : List Char} (free : separator ∉ p) :
    pieces separator p = [p] := by
  induction p with
  | nil => rfl
  | cons c p ih =>
    have ⟨differ, rest⟩ := List.ne_and_not_mem_of_not_mem_cons free
    simp [pieces, Ne.symm differ, ih rest]

theorem pieces_append_cons {separator : Char} {p rest : List Char} (free : separator ∉ p) :
    pieces separator (p ++ separator :: rest) = p :: pieces separator rest := by
  induction p with
  | nil => simp [pieces]
  | cons c p ih =>
    obtain ⟨differ, behind⟩ := List.ne_and_not_mem_of_not_mem_cons free
    simp [pieces, Ne.symm differ, ih behind]

/-- Texts with the separator between them have the pieces of both. -/
theorem pieces_append (separator : Char) (a b : List Char) :
    pieces separator (a ++ separator :: b) = pieces separator a ++ pieces separator b := by
  induction a with
  | nil => simp [pieces]
  | cons c a ih =>
    by_cases same : c = separator
    · simp [pieces, same, ih]
    · cases cut : pieces separator a with
      | nil => exact absurd cut (pieces_ne_nil separator a)
      | cons first more => simp [pieces, same, ih, cut]

/-- Pieces are cut apart where they were joined. -/
theorem pieces_join {separator : Char} {ps : List (List Char)} (filled : ps ≠ [])
    (free : ∀ p ∈ ps, separator ∉ p) : pieces separator (join [separator] ps) = ps := by
  induction ps with
  | nil => exact absurd rfl filled
  | cons p ps ih =>
    cases ps with
    | nil => simpa using pieces_of_notMem (free p (by simp))
    | cons q ps =>
      rw [join_cons_cons, List.append_assoc, List.singleton_append,
        pieces_append_cons (free p (by simp)), ih (by simp) fun r mem => free r (by simp [mem])]

/-- The characters of the pieces are characters of the text, and not the separator. -/
theorem mem_of_mem_pieces {separator : Char} {cs p : List Char} (mem : p ∈ pieces separator cs) :
    separator ∉ p ∧ ∀ c ∈ p, c ∈ cs := by
  induction cs generalizing p with
  | nil =>
    obtain rfl : p = [] := by simpa [pieces] using mem
    simp
  | cons d cs ih =>
    simp only [pieces] at mem
    split at mem
    · rcases List.mem_cons.1 mem with rfl | mem
      · simp
      · exact ⟨(ih mem).1, fun c inPiece => List.mem_cons_of_mem d ((ih mem).2 c inPiece)⟩
    · rename_i differ
      split at mem
      · obtain rfl : p = [d] := by simpa using mem
        exact ⟨by simpa using Ne.symm differ, by simp⟩
      · rename_i first more cut
        rcases List.mem_cons.1 mem with rfl | mem
        · have old := ih (p := first) (by simp [cut])
          refine ⟨by simp [Ne.symm differ, old.1], fun c inPiece => ?_⟩
          rcases List.mem_cons.1 inPiece with rfl | inPiece
          · simp
          · exact List.mem_cons_of_mem d (old.2 c inPiece)
        · have old := ih (p := p) (by simp [cut, mem])
          exact ⟨old.1, fun c inPiece => List.mem_cons_of_mem d (old.2 c inPiece)⟩

theorem mem_of_mem_lastPiece {separator : Char} {cs : List Char} {c : Char} (mem : c ∈ lastPiece separator cs) :
    c ∈ cs ∧ c ≠ separator := by
  unfold lastPiece at mem
  cases last : (pieces separator cs).getLast? with
  | none => exact absurd (List.getLast?_eq_none_iff.1 last) (pieces_ne_nil separator cs)
  | some p =>
    rw [last] at mem
    obtain ⟨noSeparator, inside⟩ := mem_of_mem_pieces (List.mem_of_getLast? last)
    exact ⟨inside c mem, fun same => noSeparator (same ▸ mem)⟩

/-! ### Cuts at a mark -/

theorem isPrefixOf?_eq_some_iff {mark cs rest : List Char} :
    mark.isPrefixOf? cs = some rest ↔ cs = mark ++ rest :=
  ⟨eq_of_isPrefixOf?, fun h => h ▸ isPrefixOf?_append mark rest⟩

theorem isPrefixOf?_eq_none_iff {mark cs : List Char} :
    mark.isPrefixOf? cs = none ↔ ¬mark <+: cs := by
  constructor
  · rintro none ⟨rest, rfl⟩
    rw [isPrefixOf?_append] at none
    cases none
  · intro absent
    cases found : mark.isPrefixOf? cs with
    | none => rfl
    | some rest => exact absurd ⟨rest, (eq_of_isPrefixOf? found).symm⟩ absent

theorem afterLead?_append (lead rest : List Char) : afterLead? lead (lead ++ rest) = some rest :=
  isPrefixOf?_append lead rest

theorem afterLead?_eq_some_iff {lead cs rest : List Char} :
    afterLead? lead cs = some rest ↔ cs = lead ++ rest :=
  isPrefixOf?_eq_some_iff

theorem beforeTail?_eq_some_iff {tail cs front : List Char} :
    beforeTail? tail cs = some front ↔ cs = front ++ tail := by
  constructor
  · intro h
    simp only [beforeTail?, List.isSuffixOf?, Option.map_eq_some_iff] at h
    obtain ⟨back, found, rfl⟩ := h
    have whole := congrArg List.reverse (eq_of_isPrefixOf? found)
    simpa using whole
  · rintro rfl
    exact beforeTail?_append front tail

/-- There is no cut exactly where the mark does not occur. -/
theorem cutAt?_eq_none_iff {mark cs : List Char} : cutAt? mark cs = none ↔ ¬mark <:+: cs := by
  induction cs with
  | nil => cases mark <;> simp [cutAt?]
  | cons c cs ih =>
    rw [List.infix_cons_iff, not_or, ← ih, ← isPrefixOf?_eq_none_iff]
    simp only [cutAt?]
    split
    · rename_i found
      simp [found]
    · rename_i missed
      simp [missed]

theorem occurs_iff {part cs : List Char} : occurs part cs ↔ part <:+: cs := by
  rw [occurs, Option.isSome_iff_ne_none, ne_eq, cutAt?_eq_none_iff, not_not]

/-- Behind some text a mark is in front just if it is without the end of another one that follows. -/
theorem prefix_dropLast_iff {mark front after : List Char} (filled : mark ≠ []) (some : front ≠ []) :
    mark <+: front ++ mark.dropLast ↔ mark <+: front ++ mark ++ after := by
  have whole : front ++ mark ++ after = front ++ mark.dropLast ++ (mark.getLast filled :: after) := by
    conv_lhs => rw [← List.dropLast_concat_getLast filled]
    simp
  rw [whole]
  refine ⟨fun lead => lead.trans (List.prefix_append _ _), fun lead => ?_⟩
  have long : mark.length ≤ (front ++ mark.dropLast).length := by
    have := List.length_pos_iff.2 some
    simp
    omega
  exact List.prefix_of_prefix_length_le lead (List.prefix_append _ _) long

/-- A mark does not occur in itself without its end. -/
theorem not_infix_dropLast {mark : List Char} (filled : mark ≠ []) : ¬mark <:+: mark.dropLast := by
  intro inside
  have short := inside.length_le
  have := List.length_pos_iff.2 filled
  simp at short
  omega

/-- A text is cut at the first place of the mark: in the part before it and all of the mark but its end
there is no other one. -/
theorem cutAt?_eq_some_iff {mark cs before after : List Char} (filled : mark ≠ []) :
    cutAt? mark cs = some (before, after) ↔
      cs = before ++ mark ++ after ∧ ¬mark <:+: before ++ mark.dropLast := by
  induction cs generalizing before with
  | nil =>
    constructor
    · intro h
      simp [cutAt?, filled] at h
    · rintro ⟨whole, -⟩
      simp_all
  | cons c cs ih =>
    by_cases lead : mark <+: c :: cs
    · obtain ⟨rest, whole⟩ := lead
      have found : mark.isPrefixOf? (c :: cs) = some rest := isPrefixOf?_eq_some_iff.2 whole.symm
      simp only [cutAt?, found, Option.some.injEq, Prod.mk.injEq]
      constructor
      · rintro ⟨rfl, rfl⟩
        exact ⟨by simpa using whole.symm, not_infix_dropLast filled⟩
      · rintro ⟨again, first⟩
        cases before with
        | nil => exact ⟨rfl, List.append_cancel_left (whole.trans again)⟩
        | cons b before =>
          have front : mark <+: b :: before ++ mark ++ after := again ▸ ⟨rest, whole⟩
          exact absurd ((prefix_dropLast_iff filled (by simp)).2 front).isInfix first
    · have missed : mark.isPrefixOf? (c :: cs) = none := isPrefixOf?_eq_none_iff.2 lead
      simp only [cutAt?, missed, Option.map_eq_some_iff, Prod.exists, Prod.mk.injEq]
      constructor
      · rintro ⟨front, back, found, rfl, rfl⟩
        obtain ⟨rfl, first⟩ := ih.1 found
        refine ⟨by simp, ?_⟩
        rw [List.cons_append, List.infix_cons_iff, not_or]
        have some : c :: front ≠ [] := by simp
        exact ⟨fun inside => lead ((prefix_dropLast_iff filled some).1 inside), first⟩
      · rintro ⟨whole, first⟩
        cases before with
        | nil => exact absurd ⟨after, whole.symm⟩ lead
        | cons b before =>
          obtain ⟨rfl, rfl⟩ := List.cons.inj whole
          rw [List.cons_append, List.infix_cons_iff, not_or] at first
          exact ⟨before, after, ih.2 ⟨rfl, first.2⟩, rfl, rfl⟩

/-- A mark of one character. -/
theorem cutAt?_singleton {c : Char} {before after : List Char} (free : c ∉ before) :
    cutAt? [c] (before ++ c :: after) = some (before, after) :=
  (cutAt?_eq_some_iff (by simp)).2 ⟨by simp, by simpa [List.singleton_infix_iff] using free⟩

theorem of_cutAt?_singleton {c : Char} {cs before after : List Char}
    (h : cutAt? [c] cs = some (before, after)) : cs = before ++ c :: after ∧ c ∉ before := by
  simpa [List.singleton_infix_iff] using (cutAt?_eq_some_iff (by simp)).1 h

/-! ### Spaces in front -/

@[simp] theorem dropSpaces_cons_space (cs : List Char) : dropSpaces (' ' :: cs) = dropSpaces cs := rfl

theorem dropSpaces_of_head {cs : List Char} (h : ∀ c ∈ cs.head?, c ≠ ' ') : dropSpaces cs = cs := by
  cases cs with
  | nil => rfl
  | cons c cs => simp [dropSpaces, h c (by simp)]

theorem head?_dropSpaces (cs : List Char) : ∀ c ∈ (dropSpaces cs).head?, c ≠ ' ' := by
  intro c mem
  have := List.head?_dropWhile_not (· == ' ') cs
  simp only [dropSpaces, Option.mem_def] at mem this
  rw [mem] at this
  simpa using this

theorem mem_of_mem_dropSpaces {cs : List Char} {c : Char} (h : c ∈ dropSpaces cs) : c ∈ cs :=
  (List.dropWhile_sublist _).subset h

theorem dropSpaces_suffix (cs : List Char) : dropSpaces cs <:+ cs := List.dropWhile_suffix _

end ApiSurface.Text
