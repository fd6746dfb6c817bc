import ApiSurface.JavaType.Erasure
import ApiSurface.Proofs.Text.Items

/-!
Types as they are written in source. A type whose names are names is one piece of a list, however deep its
arguments are, and without them it is its erased form. Main statements: a legal type is clear of spaces and
commas (`JavaType.Legal.renders`), the same holds of lists of types (`renders_join`), and stripping a type
of its arguments gives its erased form (`stripGenerics_render`).
-/

namespace ApiSurface

open ApiSurface.Text

/-! ### Names -/

/-- The punctuation of the first 128 characters that no name holds. -/
def isPunctuation (c : Char) : Bool :=
  let n := c.toNat
  c != '$' && c != '_' && ((0x21 ≤ n && n ≤ 0x2f) || (0x3a ≤ n && n ≤ 0x40) || (0x5b ≤ n && n ≤ 0x60) ||
    (0x7b ≤ n && n ≤ 0x7e))

/-- The characters of names in source. -/
def isNamePart (c : Char) : Bool := !isBlank c && !isPunctuation c

/-- A name without dots. -/
structure IsIdentifier (t : List Char) : Prop where
  filled : t ≠ []
  parts : ∀ c ∈ t, isNamePart c

instance (t : List Char) : Decidable (IsIdentifier t) :=
  decidable_of_iff (t ≠ [] ∧ ∀ c ∈ t, isNamePart c) ⟨fun h => ⟨h.1, h.2⟩, fun h => ⟨h.filled, h.parts⟩⟩

/-- Names with dots between them. -/
def IsQualified (t : List Char) : Prop :=
  ∃ parts, parts ≠ [] ∧ t = join ['.'] parts ∧ ∀ p ∈ parts, IsIdentifier p

/-- A text is qualified if it is cut into names at its dots. -/
theorem IsQualified.of_pieces {t : List Char} (h : ∀ p ∈ pieces '.' t, IsIdentifier p) : IsQualified t :=
  ⟨_, pieces_ne_nil _ _, (join_pieces _ _).symm, h⟩

/-- The characters of types without arguments, and the comma. -/
def isTypeChar (c : Char) : Bool := isNamePart c || ['.', '[', ']', ','].contains c

theorem isTypeChar_of_isNamePart {c : Char} (h : isNamePart c) : isTypeChar c := by simp [isTypeChar, h]

/-- The characters that mean something in a line are in no name. -/
theorem notMem_of_isNamePart {c : Char} (h : isNamePart c) :
    c ∉ marks ∧ c ∉ [' ', ',', '.', '&', '=', '/', '\n', '\r'] := by
  have none : ∀ d ∈ marks ++ [' ', ',', '.', '&', '=', '/', '\n', '\r'], isNamePart d = false := by decide
  refine ⟨fun mem => ?_, fun mem => ?_⟩
  · rw [none c (List.mem_append_left _ mem)] at h
    cases h
  · rw [none c (List.mem_append_right _ mem)] at h
    cases h

theorem isBlank_of_isTypeChar {c : Char} (h : isTypeChar c) : isBlank c = false := by
  simp only [isTypeChar, Bool.or_eq_true, List.contains_iff_mem] at h
  rcases h with h | h
  · simp only [isNamePart, Bool.and_eq_true, Bool.not_eq_true'] at h
    exact h.1
  · have none : ∀ d ∈ ['.', '[', ']', ','], isBlank d = false := by decide
    exact none c h

theorem IsQualified.filled {t : List Char} (h : IsQualified t) : t ≠ [] := by
  obtain ⟨parts, some, rfl, each⟩ := h
  match parts, some with
  | [p], _ => simpa using (each p (by simp)).filled
  | p :: q :: more, _ => simp [join_cons_cons, (each p (by simp)).filled]

/-- A qualified name holds the characters of names and dots. -/
theorem IsQualified.parts {t : List Char} (h : IsQualified t) : ∀ c ∈ t, isNamePart c ∨ c = '.' := by
  obtain ⟨parts, -, rfl, each⟩ := h
  intro c mem
  rcases mem_or_of_mem_join mem with dot | ⟨p, inList, inside⟩
  · exact .inr (by simpa using dot)
  · exact .inl ((each p inList).parts c inside)

theorem IsIdentifier.qualified {t : List Char} (h : IsIdentifier t) : IsQualified t :=
  ⟨[t], by simp, by simp, by simpa using h⟩

/-! ### Legal types -/

mutual

/-- A type whose names are names. -/
def JavaType.Legal : JavaType → Prop
  | .primitive _ => True
  | .variable name => IsIdentifier name
  | .array element => element.Legal
  | .classType name arguments nested =>
    IsQualified (dotted name) ∧ LegalArguments? arguments ∧ LegalNested nested

/-- Type arguments that are legal, if there are any. -/
def LegalArguments? : Option (List TypeArgument) → Prop
  | none => True
  | some arguments => LegalArguments arguments

/-- Type arguments that are legal. -/
def LegalArguments : List TypeArgument → Prop
  | [] => True
  | a :: more => a.Legal ∧ LegalArguments more

/-- A type argument whose names are names. -/
def TypeArgument.Legal : TypeArgument → Prop
  | .any => True
  | .extending bound => bound.Legal
  | .superOf bound => bound.Legal
  | .exactly type => type.Legal

/-- Nested classes whose names are names. -/
def LegalNested : List NestedType → Prop
  | [] => True
  | .mk name arguments :: more => IsIdentifier name ∧ LegalArguments? arguments ∧ LegalNested more

end

/-- Nested classes without their arguments. -/
def erasedNested : List NestedType → List Char
  | [] => []
  | .mk name _ :: more => '$' :: name ++ erasedNested more

/-- A type without its arguments. -/
def JavaType.erased : JavaType → List Char
  | .primitive p => p.name
  | .variable name => name
  | .array element => element.erased ++ ['[', ']']
  | .classType name _ nested => dotted name ++ erasedNested nested

/-! ### Walking through types -/

/-- A text that no separator cuts, whatever brackets count if angle brackets do, that stays on one line, and
that is erased to this one in front of anything else. -/
structure Renders (stops text erased : List Char) : Prop where
  clearIn : ∀ opens ⊆ brackets, '<' ∈ opens → Clear opens stops text
  chars : ∀ c ∈ text, isNamePart c ∨ c ∈ ['.', '[', ']', ',', '<', '>', '?', ' ', '&']
  drops : ∀ depth rest, dropArguments depth (text ++ rest) =
    (if depth = 0 then erased else []) ++ dropArguments depth rest

namespace Renders

variable {stops a b e f : List Char}

theorem clear (h : Renders stops a e) : Clear brackets stops a := h.clearIn _ (List.Subset.refl _) (by decide)

theorem nil : Renders stops [] [] := ⟨fun _ _ _ => rfl, by simp, by simp⟩

theorem append (first : Renders stops a e) (later : Renders stops b f) : Renders stops (a ++ b) (e ++ f) := by
  refine ⟨fun opens sub angle => (first.clearIn opens sub angle).append (later.clearIn opens sub angle),
    fun c mem => ?_, fun depth rest => ?_⟩
  · exact (List.mem_append.1 mem).elim (first.chars c) (later.chars c)
  · rw [List.append_assoc, first.drops, later.drops]
    split <;> simp

theorem of_subset {fewer : List Char} (h : Renders stops a e) (sub : fewer ⊆ stops) : Renders fewer a e :=
  ⟨fun opens subset angle => (h.clearIn opens subset angle).of_subset sub, h.chars, h.drops⟩

/-- Characters without meaning stay as they are. -/
theorem word (plain : ∀ c ∈ a, (isNamePart c ∨ c ∈ ['.', ',', '?', ' ', '&']) ∧ c ∉ stops) :
    Renders stops a a := by
  have noMark : ∀ c ∈ a, c ∉ marks := by
    intro c mem
    rcases (plain c mem).1 with part | other
    · exact (notMem_of_isNamePart part).1
    · have none : ∀ d ∈ ['.', ',', '?', ' ', '&'], d ∉ marks := by decide
      exact none c other
  refine ⟨fun opens sub _ => clear_of_plain sub fun c mem => ⟨noMark c mem, (plain c mem).2⟩,
    fun c mem => ?_, fun depth rest => ?_⟩
  · rcases (plain c mem).1 with part | other
    · exact .inl part
    · simp only [List.mem_cons, List.not_mem_nil, or_false] at other ⊢
      tauto
  · clear plain
    induction a with
    | nil => simp
    | cons c a ih =>
      have noOpen : c ≠ '<' := fun same => noMark c (by simp) (by simp [same, marks])
      have noClose : c ≠ '>' := fun same => noMark c (by simp) (by simp [same, marks])
      have later := ih fun d mem => noMark d (by simp [mem])
      by_cases top : depth = 0 <;> simp_all [dropArguments]

/-- The pair of brackets of an array. -/
theorem dimension (free : '[' ∉ stops ∧ ']' ∉ stops) : Renders stops ['[', ']'] ['[', ']'] := by
  refine ⟨fun opens sub _ => clear_dimension sub free, by simp, fun depth rest => ?_⟩
  · by_cases top : depth = 0 <;> simp [dropArguments, top]

/-- Arguments in angle brackets are erased to nothing, and nothing in them counts. -/
theorem arguments (free : '<' ∉ stops) (h : Renders [] a e) : Renders stops ('<' :: a ++ ['>']) [] := by
  refine ⟨fun opens sub angle => (h.clearIn opens sub angle).bracketed sub angle free, fun c mem => ?_,
    fun depth rest => ?_⟩
  · simp only [List.cons_append, List.mem_cons, List.mem_append, List.not_mem_nil, or_false] at mem
    rcases mem with rfl | mem | rfl
    · simp
    · exact h.chars c mem
    · simp
  · have inner := h.drops (depth + 1) ('>' :: rest)
    rw [if_neg (Nat.add_one_ne_zero depth), List.nil_append] at inner
    simp [dropArguments, inner]

end Renders

theorem primitive_parts (p : Primitive) : IsIdentifier p.name := by
  cases p <;> exact ⟨by decide, by decide⟩

theorem renders_identifier {t : List Char} (h : IsIdentifier t) : Renders [' ', ','] t t := by
  refine .word fun c mem => ⟨.inl (h.parts c mem), ?_⟩
  have := (notMem_of_isNamePart (h.parts c mem)).2
  simp only [List.mem_cons, List.not_mem_nil, or_false, not_or] at this ⊢
  exact ⟨this.1, this.2.1⟩

theorem renders_qualified {t : List Char} (h : IsQualified t) : Renders [' ', ','] t t := by
  refine .word fun c mem => ?_
  rcases h.parts c mem with part | rfl
  · have := (notMem_of_isNamePart part).2
    simp only [List.mem_cons, List.not_mem_nil, or_false, not_or] at this ⊢
    exact ⟨.inl part, this.1, this.2.1⟩
  · decide

mutual

/-- A legal type is one piece of a line and of a list, and is erased as it should be. -/
theorem JavaType.Legal.renders : ∀ {t : JavaType}, t.Legal → Renders [' ', ','] t.render t.erased
  | .primitive p, _ => renders_identifier (primitive_parts p)
  | .variable name, h => renders_identifier h
  | .array element, h => by
    have inner := JavaType.Legal.renders (t := element) h
    exact inner.append (.dimension (by decide))
  | .classType name arguments nested, h => by
    obtain ⟨named, given, inside⟩ := h
    have args := rendersArguments? given
    have rest := rendersNested inside
    simpa [JavaType.render, JavaType.erased] using ((renders_qualified named).append args).append rest

theorem rendersArguments? : ∀ {arguments : Option (List TypeArgument)}, LegalArguments? arguments →
    Renders [' ', ','] (renderArguments? arguments) []
  | none, _ => .nil
  | some l, h => by
    obtain ⟨e, inner⟩ := rendersArguments (l := l) h
    exact inner.arguments (by decide)

theorem rendersArguments : ∀ {l : List TypeArgument}, LegalArguments l → ∃ e, Renders [] (renderArguments l) e
  | [], _ => ⟨[], .nil⟩
  | [a], h => TypeArgument.Legal.renders h.1
  | a :: b :: more, h => by
    obtain ⟨e, first⟩ := TypeArgument.Legal.renders h.1
    obtain ⟨f, later⟩ := rendersArguments (l := b :: more) h.2
    have comma : Renders [] [','] [','] := .word (by simp)
    refine ⟨e ++ ([','] ++ f), ?_⟩
    simpa [renderArguments] using first.append (comma.append later)

theorem TypeArgument.Legal.renders : ∀ {a : TypeArgument}, a.Legal → ∃ e, Renders [] a.render e
  | .any, _ => ⟨['?'], Renders.word (a := ['?']) (by decide)⟩
  | .extending bound, h => by
    have inner : Renders [] bound.render bound.erased :=
      (JavaType.Legal.renders (t := bound) h).of_subset (by simp)
    have words : Renders [] "? extends ".toList "? extends ".toList := .word (by decide)
    exact ⟨_, words.append inner⟩
  | .superOf bound, h => by
    have inner : Renders [] bound.render bound.erased :=
      (JavaType.Legal.renders (t := bound) h).of_subset (by simp)
    have words : Renders [] "? super ".toList "? super ".toList := .word (by decide)
    exact ⟨_, words.append inner⟩
  | .exactly type, h => by
    have inner : Renders [] type.render type.erased :=
      (JavaType.Legal.renders (t := type) h).of_subset (by simp)
    exact ⟨_, inner⟩

theorem rendersNested : ∀ {nested : List NestedType}, LegalNested nested →
    Renders [' ', ','] (renderNested nested) (erasedNested nested)
  | [], _ => .nil
  | .mk name arguments :: more, h => by
    obtain ⟨named, given, inside⟩ := h
    have dollar : Renders [' ', ','] ['$'] ['$'] := .word (by decide)
    have args := rendersArguments? given
    have rest := rendersNested inside
    simpa [renderNested, erasedNested] using
      ((dollar.append (renders_identifier named)).append args).append rest

end

/-! ### Erased types -/

/-- A text in which no three dots spell an array, in front of anything. -/
def SpelledAsIs (t : List Char) : Prop := ∀ rest, spellArrays (t ++ rest) = t ++ spellArrays rest

theorem SpelledAsIs.append {a b : List Char} (first : SpelledAsIs a) (later : SpelledAsIs b) :
    SpelledAsIs (a ++ b) := by
  intro rest
  rw [List.append_assoc, first, later, List.append_assoc]

theorem spellArrays_cons {c : Char} (noDot : c ≠ '.') (cs : List Char) :
    spellArrays (c :: cs) = c :: spellArrays cs := by
  rw [spellArrays]
  intro more same
  exact absurd same noDot

theorem spelledAsIs_of_notMem {t : List Char} (free : '.' ∉ t) : SpelledAsIs t := by
  intro rest
  induction t with
  | nil => rfl
  | cons c t ih =>
    have ⟨differ, behind⟩ := List.ne_and_not_mem_of_not_mem_cons free
    rw [List.cons_append, spellArrays_cons (Ne.symm differ), ih behind]
    rfl

/-- A single dot stays. -/
theorem spellArrays_dot {c : Char} (noDot : c ≠ '.') (cs : List Char) :
    spellArrays ('.' :: c :: cs) = '.' :: spellArrays (c :: cs) := by
  rw [spellArrays]
  intro more _ same
  exact absurd (List.cons.inj same).1 noDot

theorem IsIdentifier.noDot {t : List Char} (h : IsIdentifier t) : '.' ∉ t := by
  intro mem
  exact (notMem_of_isNamePart (h.parts '.' mem)).2 (by simp)

/-- A qualified name stays as it is. -/
theorem IsQualified.spelled {t : List Char} (h : IsQualified t) : SpelledAsIs t := by
  obtain ⟨parts, some, rfl, each⟩ := h
  intro rest
  induction parts with
  | nil => exact absurd rfl some
  | cons p parts ih =>
    have first := spelledAsIs_of_notMem (each p (by simp)).noDot
    cases parts with
    | nil => simpa using first rest
    | cons q parts =>
      have later := ih (by simp) fun r mem => each r (by simp [mem])
      have part := each q (by simp)
      cases chars : q with
      | nil => exact absurd chars part.filled
      | cons c q' =>
        have noDot : c ≠ '.' := by
          rintro rfl
          exact part.noDot (by simp [chars])
        subst chars
        rw [join_cons_cons]
        have starts : ∃ more, join ['.'] ((c :: q') :: parts) = c :: more :=
          ⟨_, join_cons_char ['.'] c q' parts⟩
        obtain ⟨more, shape⟩ := starts
        rw [shape] at later ⊢
        simp only [List.append_assoc, List.cons_append, List.nil_append] at later ⊢
        rw [first, spellArrays_dot noDot, later]

/-- A type without arguments, in front of which and behind which nothing else can be part of it. -/
structure IsFlat (t : List Char) : Prop where
  filled : t ≠ []
  chars : ∀ c ∈ t, isTypeChar c
  noComma : ',' ∉ t
  starts : ∀ c ∈ t.head?, c ≠ '['
  clear : Clear brackets [' ', ','] t

theorem IsFlat.append {a b : List Char} (first : IsFlat a) (chars : ∀ c ∈ b, isTypeChar c) (noComma : ',' ∉ b)
    (clear : Clear brackets [' ', ','] b) : IsFlat (a ++ b) := by
  refine ⟨by simp [first.filled], fun c mem => ?_, by simp [first.noComma, noComma], ?_, first.clear.append clear⟩
  · exact (List.mem_append.1 mem).elim (first.chars c) (chars c)
  · rw [List.head?_append_of_ne_nil _ first.filled]
    exact first.starts

theorem IsQualified.flat {t : List Char} (h : IsQualified t) : IsFlat t := by
  have never {c : Char} (other : isNamePart c = false ∧ c ≠ '.') : c ∉ t := by
    intro mem
    rcases h.parts c mem with part | same
    · rw [part] at other
      cases other.1
    · exact other.2 same
  refine ⟨h.filled, fun c mem => ?_, never (by decide), fun c mem same => ?_, (renders_qualified h).clear⟩
  · rcases h.parts c mem with part | rfl
    · exact isTypeChar_of_isNamePart part
    · decide
  · exact never (c := '[') (by decide) (same ▸ List.mem_of_mem_head? mem)

/-- Nested classes without arguments are flat and spelled as they are. -/
theorem flat_erasedNested {nested : List NestedType} (h : LegalNested nested) :
    (∀ c ∈ erasedNested nested, isNamePart c) ∧ Clear brackets [' ', ','] (erasedNested nested) ∧
      SpelledAsIs (erasedNested nested) := by
  induction nested with
  | nil => exact ⟨by simp [erasedNested], clear_nil, fun _ => rfl⟩
  | cons n nested ih =>
    obtain ⟨name, arguments⟩ := n
    obtain ⟨named, -, inside⟩ := h
    obtain ⟨chars, clear, spelled⟩ := ih inside
    have whole : erasedNested (.mk name arguments :: nested) = ['$'] ++ (name ++ erasedNested nested) := rfl
    have dollar : Clear brackets [' ', ','] ['$'] :=
      (Renders.word (a := ['$']) (by decide)).clear
    rw [whole]
    refine ⟨fun c mem => ?_, dollar.append ((renders_identifier named).clear.append clear),
      (spelledAsIs_of_notMem (by decide)).append ((spelledAsIs_of_notMem named.noDot).append spelled)⟩
    simp only [List.mem_append, List.mem_singleton] at mem
    rcases mem with rfl | mem | mem
    · decide
    · exact named.parts c mem
    · exact chars c mem

/-- A type without arguments is flat and spelled as it is. -/
theorem JavaType.Legal.flat : ∀ {t : JavaType}, t.Legal → IsFlat t.erased ∧ SpelledAsIs t.erased
  | .primitive p, _ => ⟨(primitive_parts p).qualified.flat, (primitive_parts p).qualified.spelled⟩
  | .variable name, h => ⟨(IsIdentifier.qualified h).flat, (IsIdentifier.qualified h).spelled⟩
  | .array element, h => by
    obtain ⟨flat, spelled⟩ := JavaType.Legal.flat (t := element) h
    exact ⟨flat.append (by decide) (by decide) (clear_dimension (List.Subset.refl _) (by decide)),
      spelled.append (spelledAsIs_of_notMem (by decide))⟩
  | .classType name arguments nested, h => by
    obtain ⟨named, -, inside⟩ := h
    obtain ⟨parts, clear, spelled⟩ := flat_erasedNested inside
    have noComma : ',' ∉ erasedNested nested := fun mem => absurd (parts ',' mem) (by decide)
    exact ⟨named.flat.append (fun c mem => isTypeChar_of_isNamePart (parts c mem)) noComma clear,
      named.spelled.append spelled⟩

/-- A type stripped of its arguments is its erased form, in front of anything else. -/
theorem stripGenerics_append {t : JavaType} (h : t.Legal) (rest : List Char) :
    stripGenerics (t.render ++ rest) = t.erased ++ stripGenerics rest := by
  have drops := h.renders.drops 0 rest
  rw [if_pos rfl] at drops
  rw [stripGenerics, drops, h.flat.2, stripGenerics]

theorem stripGenerics_render {t : JavaType} (h : t.Legal) : stripGenerics t.render = t.erased := by
  simpa [stripGenerics, dropArguments, spellArrays] using stripGenerics_append h []

theorem render_ne_nil {t : JavaType} (h : t.Legal) : t.render ≠ [] := by
  intro none
  have erased := stripGenerics_render h
  rw [none] at erased
  exact h.flat.1.filled erased.symm

/-! ### Lists of types -/

theorem Renders.join {stops separator : List Char} (between : Renders stops separator separator)
    {ts : List (List Char × List Char)} (each : ∀ t ∈ ts, Renders stops t.1 t.2) :
    Renders stops (Text.join separator (ts.map Prod.fst)) (Text.join separator (ts.map Prod.snd)) := by
  induction ts with
  | nil => exact .nil
  | cons t ts ih =>
    have first := each t (by simp)
    have later := ih fun u mem => each u (by simp [mem])
    cases ts with
    | nil => simpa using first
    | cons u ts =>
      simp only [List.map_cons, join_cons_cons] at later ⊢
      exact (first.append between).append later

/-- A text that no separator cuts begins and ends with no blank. -/
theorem Renders.trimmed {t e : List Char} (h : Renders [' ', ','] t e) : Trimmed t := by
  have solid {c : Char} (mem : c ∈ t) (noSpace : c ≠ ' ') : isBlank c = false := by
    rcases h.chars c mem with part | other
    · exact isBlank_of_isTypeChar (isTypeChar_of_isNamePart part)
    · have none : ∀ d ∈ ['.', '[', ']', ',', '<', '>', '?', ' ', '&'], d ≠ ' ' → isBlank d = false := by decide
      exact none c other noSpace
  constructor
  · intro c mem
    cases t with
    | nil => cases mem
    | cons d t =>
      obtain rfl : d = c := by simpa using mem
      exact solid (by simp) fun same => h.clear.head_notMem (by simp [same])
  · intro c mem
    rcases List.eq_nil_or_concat' t with rfl | ⟨front, d, rfl⟩
    · cases mem
    · obtain rfl : d = c := by simpa using mem
      refine solid (by simp) fun same => ?_
      subst same
      exact h.clear.last_notMem (by decide) (by simp)

/-- A legal type is an item of a list and a token of a line. -/
theorem JavaType.Legal.isItem {t : JavaType} (h : t.Legal) : IsItem brackets t.render :=
  ⟨render_ne_nil h, h.renders.trimmed, h.renders.clear.of_subset (by decide)⟩

/-- Types with commas between them. -/
def renderTypes (ts : List JavaType) : List Char := join [','] (ts.map JavaType.render)

/-- Types without arguments with commas between them. -/
def erasedTypes (ts : List JavaType) : List Char := join [','] (ts.map JavaType.erased)

theorem renders_types {ts : List JavaType} (h : ∀ t ∈ ts, t.Legal) :
    Renders [' '] (renderTypes ts) (erasedTypes ts) := by
  have comma : Renders [' '] [','] [','] := .word (by decide)
  have each : ∀ p ∈ ts.map fun t => (t.render, t.erased), Renders [' '] p.1 p.2 := by
    intro p mem
    obtain ⟨t, inList, rfl⟩ := List.mem_map.1 mem
    exact (h t inList).renders.of_subset (by decide)
  simpa [renderTypes, erasedTypes, Function.comp_def] using comma.join each

theorem spelled_types {ts : List JavaType} (h : ∀ t ∈ ts, t.Legal) : SpelledAsIs (erasedTypes ts) := by
  induction ts with
  | nil => exact fun _ => rfl
  | cons t ts ih =>
    have first := (h t (by simp)).flat.2
    have later := ih fun u mem => h u (by simp [mem])
    cases ts with
    | nil => simpa [erasedTypes] using first
    | cons u ts =>
      have comma : SpelledAsIs [','] := spelledAsIs_of_notMem (by decide)
      simpa [erasedTypes, join_cons_cons] using (first.append comma).append later

theorem stripGenerics_types {ts : List JavaType} (h : ∀ t ∈ ts, t.Legal) (rest : List Char) :
    stripGenerics (renderTypes ts ++ rest) = erasedTypes ts ++ stripGenerics rest := by
  have drops := (renders_types h).drops 0 rest
  rw [if_pos rfl] at drops
  rw [stripGenerics, drops, spelled_types h, stripGenerics]

/-- What stands behind the last piece. -/
theorem join_concat_append (separator : List Char) (ps : List (List Char)) (p tail : List Char) :
    join separator (ps ++ [p ++ tail]) = join separator (ps ++ [p]) ++ tail := by
  induction ps with
  | nil => simp
  | cons q ps ih =>
    cases ps with
    | nil => simp
    | cons r ps =>
      simp only [List.cons_append, join_cons_cons, List.append_assoc] at ih ⊢
      rw [ih]

/-- A list whose last type has dots behind it is erased like one whose last type is an array. -/
theorem stripGenerics_concat_dots {ts : List JavaType} {t : JavaType} (legal : ∀ u ∈ ts ++ [t], u.Legal) :
    stripGenerics (renderTypes (ts ++ [t]) ++ ['.', '.', '.']) = stripGenerics (renderTypes (ts ++ [.array t])) := by
  have arrays : ∀ u ∈ ts ++ [JavaType.array t], u.Legal := by
    intro u mem
    rcases List.mem_append.1 mem with mem | mem
    · exact legal u (List.mem_append_left _ mem)
    · obtain rfl := List.mem_singleton.1 mem
      exact legal t (by simp)
  have dots : stripGenerics ['.', '.', '.'] = ['[', ']'] := by decide
  have whole := stripGenerics_types arrays []
  rw [List.append_nil, show stripGenerics [] = [] from rfl, List.append_nil] at whole
  rw [stripGenerics_types legal, whole, dots, erasedTypes, erasedTypes, List.map_append, List.map_append]
  exact (join_concat_append [','] (ts.map JavaType.erased) t.erased ['[', ']']).symm

/-- A list of types without arguments is clear of spaces. -/
theorem flat_types {ts : List JavaType} (h : ∀ t ∈ ts, t.Legal) :
    (∀ c ∈ erasedTypes ts, isTypeChar c) ∧ Clear brackets [' '] (erasedTypes ts) := by
  refine ⟨fun c mem => ?_, clear_join (List.Subset.refl _) (by decide) (by decide) fun p mem => ?_⟩
  · rcases mem_or_of_mem_join mem with comma | ⟨p, inList, inside⟩
    · obtain rfl := List.mem_singleton.1 comma
      decide
    · obtain ⟨t, inTypes, rfl⟩ := List.mem_map.1 inList
      exact (h t inTypes).flat.1.chars c inside
  · obtain ⟨t, inTypes, rfl⟩ := List.mem_map.1 mem
    exact (h t inTypes).flat.1.clear.of_subset (by decide)

/-! ### Type parameters -/

/-- The class of all objects as a type. -/
def JavaType.object : JavaType := .classType objectName none []

theorem JavaType.legal_object : object.Legal := ⟨.of_pieces (by decide), trivial, trivial⟩

/-- The bounds of a type parameter, the first of which it is erased to. -/
def TypeParameter.uppers (p : TypeParameter) : List JavaType :=
  if p.bounds.isEmpty then [.object] else p.bounds

theorem TypeParameter.render_eq (p : TypeParameter) :
    p.render = p.name ++ " extends ".toList ++ join " & ".toList (p.uppers.map JavaType.render) := by
  have object : JavaType.object.render = objectName := by decide
  unfold TypeParameter.render uppers
  split <;> simp [object]

theorem renders_parameter {p : TypeParameter} (named : IsIdentifier p.name) (h : ∀ b ∈ p.uppers, b.Legal) :
    ∃ e, Renders [','] p.render e := by
  have name : Renders [','] p.name p.name := (renders_identifier named).of_subset (by decide)
  have word : Renders [','] " extends ".toList " extends ".toList := .word (by decide)
  have between : Renders [','] " & ".toList " & ".toList := .word (by decide)
  have each : ∀ q ∈ p.uppers.map fun b => (b.render, b.erased), Renders [','] q.1 q.2 := by
    intro q mem
    obtain ⟨b, inList, rfl⟩ := List.mem_map.1 mem
    exact (h b inList).renders.of_subset (by decide)
  have bounds := between.join each
  have whole := (name.append word).append bounds
  rw [List.map_map] at whole
  exact ⟨_, by rw [TypeParameter.render_eq]; exact whole⟩

end ApiSurface
