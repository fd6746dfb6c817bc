import ApiSurface.Line.Token
import ApiSurface.Proofs.Text.Clear

/-!
Tokens written and read. A token is a text without a space at top level; a line is a token with further
ones behind it, a space before each. Main statements: a token is taken off the line up to the next space
(`token?_eq_some_iff`), the keywords of a set are read back as the part of it that is written
(`modifiers_spaced`), and behind modifiers that were read no keyword comes next (`of_modifiers`).
-/

namespace ApiSurface.Line

open ApiSurface.Text

/-- A text that a line gives back as one token. -/
structure IsToken (t : List Char) : Prop where
  filled : t ≠ []
  clear : Clear brackets [' '] t

/-- Tokens with a space before each. -/
def spaced (ts : List (List Char)) : List Char := ts.flatMap (' ' :: ·)

/-- The end of a text, or a space next. -/
def AtSpace (cs : List Char) : Prop := ∀ c ∈ cs.head?, c = ' '

/-- A word that is no keyword of a modifier. -/
def NotKeyword (t : List Char) : Prop := Modifier.ofKeyword? (String.ofList t) = none

instance (t : List Char) : Decidable (NotKeyword t) := inferInstanceAs (Decidable (_ = _))

@[simp] theorem spaced_nil : spaced [] = [] := rfl

@[simp] theorem spaced_cons (t : List Char) (ts : List (List Char)) :
    spaced (t :: ts) = ' ' :: (t ++ spaced ts) := rfl

@[simp] theorem spaced_append (ts us : List (List Char)) : spaced (ts ++ us) = spaced ts ++ spaced us := by
  simp [spaced]

theorem atSpace_nil : AtSpace [] := by simp [AtSpace]

theorem atSpace_cons (cs : List Char) : AtSpace (' ' :: cs) := by simp [AtSpace]

theorem atSpace_spaced_append (ts : List (List Char)) {raw : List Char} (h : AtSpace raw) :
    AtSpace (spaced ts ++ raw) := by
  cases ts with
  | nil => exact h
  | cons t ts => exact atSpace_cons _

theorem mem_spaced {ts : List (List Char)} {c : Char} (h : c ∈ spaced ts) : c = ' ' ∨ ∃ t ∈ ts, c ∈ t := by
  simp only [spaced, List.mem_flatMap, List.mem_cons] at h
  obtain ⟨t, mem, rfl | inToken⟩ := h
  · exact .inl rfl
  · exact .inr ⟨t, mem, inToken⟩

/-- A line is its first token with the others behind it. -/
theorem joinTokens_cons {t : List Char} (filled : t ≠ []) (ts : List (List Char)) :
    joinTokens (t :: ts) = t ++ spaced (ts.filter (!·.isEmpty)) := by
  simp [joinTokens, filled, join_eq_append_flatMap, spaced]

/-! ### Taking tokens -/

/-- No token begins with a space. -/
theorem IsToken.head_ne {t : List Char} (h : IsToken t) : ∀ c ∈ t.head?, c ≠ ' ' := by
  intro c mem
  cases t with
  | nil => cases mem
  | cons d t =>
    obtain rfl : d = c := by simpa using mem
    simpa using h.clear.head_notMem

/-- The next token goes from the first character that is no space up to a space behind it. -/
theorem nextToken_eq_some_iff {cs t rest : List Char} :
    nextToken cs = .ok (some t, rest) ↔ dropSpaces cs = t ++ rest ∧ IsToken t ∧ AtSpace rest := by
  have starts := head?_dropSpaces cs
  simp only [nextToken]
  split
  · rename_i none
    constructor
    · intro h
      cases h
    · rintro ⟨whole, token, -⟩
      exact absurd (List.append_eq_nil_iff.1 (none ▸ whole.symm)).1 token.filled
  · rename_i c more found
    rw [found] at starts
    constructor
    · intro h
      split at h
      · cases h
      · rename_i scanned
        cases h
        obtain ⟨whole, clear, ends⟩ := scanTo_eq_ok_iff.1 scanned
        refine ⟨by rw [found, whole], ⟨?_, clear⟩, fun d mem => by simpa using ends d mem⟩
        rintro rfl
        obtain rfl : rest = c :: more := whole.symm
        exact starts c (by simp) (by simpa using ends c (by simp))
    · rintro ⟨whole, token, ends⟩
      rw [found] at whole
      have scanned : scanTo [' '] (c :: more) = .ok (t, rest) :=
        scanTo_eq_ok_iff.2 ⟨whole, token.clear, fun d mem => by simpa using ends d mem⟩
      rw [scanned]

theorem nextToken_eq_none_iff {cs rest : List Char} :
    nextToken cs = .ok (none, rest) ↔ dropSpaces cs = [] ∧ rest = [] := by
  simp only [nextToken]
  split
  · rename_i none
    simp [none, eq_comm]
  · rename_i found
    split <;> simp [found]

theorem token?_eq_ok_iff {line cs rest : List Char} {t : Option (List Char)} :
    token? line cs = .ok (t, rest) ↔ nextToken cs = .ok (t, rest) := by
  simp only [token?, liftBrackets]
  cases nextToken cs <;> simp [fail]

theorem token?_eq_some_iff {line cs t rest : List Char} :
    token? line cs = .ok (some t, rest) ↔ dropSpaces cs = t ++ rest ∧ IsToken t ∧ AtSpace rest :=
  token?_eq_ok_iff.trans nextToken_eq_some_iff

theorem token?_eq_none_iff {line cs rest : List Char} :
    token? line cs = .ok (none, rest) ↔ dropSpaces cs = [] ∧ rest = [] :=
  token?_eq_ok_iff.trans nextToken_eq_none_iff

@[simp] theorem token?_nil (line : List Char) : token? line [] = .ok (none, []) :=
  token?_eq_none_iff.2 ⟨rfl, rfl⟩

theorem token_eq_ok_iff {line cs t rest : List Char} {what : String} :
    token line what cs = .ok (t, rest) ↔ dropSpaces cs = t ++ rest ∧ IsToken t ∧ AtSpace rest := by
  rw [← @token?_eq_some_iff line]
  simp only [token]
  split <;> simp_all [fail]

/-- A token in front of the rest of a line is taken off. -/
theorem IsToken.taken {t rest : List Char} (token : IsToken t) (ends : AtSpace rest) :
    nextToken (t ++ rest) = .ok (some t, rest) := by
  refine nextToken_eq_some_iff.2 ⟨dropSpaces_of_head fun c mem => ?_, token, ends⟩
  rw [List.head?_append_of_ne_nil _ token.filled] at mem
  exact token.head_ne c mem

theorem token?_append {t : List Char} (token : IsToken t) (line : List Char) {rest : List Char}
    (ends : AtSpace rest) : token? line (t ++ rest) = .ok (some t, rest) :=
  token?_eq_ok_iff.2 (token.taken ends)

/-- A token behind a space is taken off. -/
theorem token?_space {t : List Char} (token : IsToken t) (line : List Char) {rest : List Char}
    (ends : AtSpace rest) : token? line (' ' :: (t ++ rest)) = .ok (some t, rest) := by
  have taken := token?_eq_some_iff.1 (token?_append token line ends)
  exact token?_eq_some_iff.2 ⟨by simpa using taken.1, token, ends⟩

theorem token_append {t : List Char} (token : IsToken t) (line : List Char) (what : String)
    {rest : List Char} (ends : AtSpace rest) : Line.token line what (t ++ rest) = .ok (t, rest) := by
  simp [Line.token, token?_append token line ends]

theorem token_space {t : List Char} (token : IsToken t) (line : List Char) (what : String)
    {rest : List Char} (ends : AtSpace rest) :
    Line.token line what (' ' :: (t ++ rest)) = .ok (t, rest) := by
  simp [Line.token, token?_space token line ends]

/-! ### Modifiers -/

theorem isToken_keyword {m : Modifier} {word : String} (h : m.keyword? = some word) :
    IsToken word.toList := by
  have plain : word.toList ≠ [] ∧ ∀ c ∈ word.toList, c ∉ marks ∧ c ∉ [' '] := by
    cases m <;> simp only [Modifier.keyword?, Option.some.injEq, reduceCtorEq] at h <;> subst h <;>
      decide
  exact ⟨plain.1, clear_of_plain (List.Subset.refl _) plain.2⟩

/-- A keyword names a modifier that is written. -/
theorem keyword?_of_ofKeyword? {word : String} {m : Modifier} (h : Modifier.ofKeyword? word = some m) :
    m.keyword? = some word := by
  simpa using List.find?_some h

/-- The keywords of modifiers are read back, in front of what is no keyword. -/
theorem modifiersFrom_spaced {line rest t behind : List Char} (word : NotKeyword t)
    (next : token? line rest = .ok (some t, behind)) (ends : AtSpace rest) (ms : List Modifier) :
    ∀ (limit : Nat) (set : Modifiers), (ms.filterMap Modifier.keyword?).length ≤ limit →
      modifiersFrom line limit set (spaced ((ms.filterMap Modifier.keyword?).map String.toList) ++ rest) =
        .ok ((ms.filter (·.keyword?.isSome)).foldl Modifiers.insert set, rest) := by
  induction ms with
  | nil =>
    intro limit set _
    cases limit with
    | zero => rfl
    | succ limit =>
      have other : Modifier.ofKeyword? (String.ofList t) = none := word
      simp [modifiersFrom, next, other]
  | cons m ms ih =>
    intro limit set enough
    cases keyword : m.keyword? with
    | none =>
      rw [List.filterMap_cons, keyword] at enough ⊢
      simp [keyword, ih limit set enough]
    | some word =>
      cases limit with
      | zero => simp [keyword] at enough
      | succ limit =>
        rw [List.filterMap_cons, keyword] at enough
        have taken := token?_space (isToken_keyword keyword) line
          (atSpace_spaced_append ((ms.filterMap Modifier.keyword?).map String.toList) ends)
        have named := Modifier.ofKeyword?_keyword? keyword
        have later := ih limit (set.insert m) (by simpa using enough)
        simp only [List.filterMap_cons, keyword, List.map_cons, spaced_cons, List.cons_append,
          List.append_assoc, modifiersFrom, taken, String.ofList_toList, named, later,
          List.filter_cons, Option.isSome_some, if_true, List.foldl_cons]

/-- The keywords of a set are read back as the part of the set that is written. -/
theorem modifiers_spaced {line rest t behind : List Char} (set : Modifiers) (word : NotKeyword t)
    (next : token? line rest = .ok (some t, behind)) (ends : AtSpace rest) :
    modifiers line (spaced (keywordTokens set) ++ rest) = .ok (set.visible, rest) := by
  refine modifiersFrom_spaced word next ends set.toList _ _ ?_
  have long (words : List String) : words.length ≤ (spaced (words.map String.toList)).length := by
    induction words with
    | nil => simp
    | cons word words ih =>
      simp only [List.length_cons, List.map_cons, spaced_cons, List.length_append]
      omega
  have := long set.keywords
  simp only [keywordTokens, List.length_append] at this ⊢
  exact Nat.le_add_right_of_le this

/-- Modifiers that are all written. -/
def Visible (set : Modifiers) : Prop := set.visible = set

theorem visible_none : Visible .none := by
  unfold Visible
  decide

theorem visible_visible (set : Modifiers) : Visible set.visible := by
  apply Modifiers.ext_has
  intro m
  simp [Modifiers.has_visible]

theorem Visible.insert {set : Modifiers} {m : Modifier} (h : Visible set) (written : m.keyword?.isSome) :
    Visible (set.insert m) := by
  apply Modifiers.ext_has
  intro n
  have old := congrArg (Modifiers.has · n) h
  simp only [Modifiers.has_visible] at old
  rw [Modifiers.has_visible, Modifiers.has_insert]
  by_cases same : m = n
  · subst same
    simp [written]
  · simpa [same] using old

/-- What was read as modifiers, and what is behind them: a rest of the line, again up to a space, with
no keyword next. -/
structure AfterModifiers (line : List Char) (set : Modifiers) (rest cs : List Char) : Prop where
  written : Visible set
  suffix : rest <:+ cs
  atSpace : AtSpace cs → AtSpace rest
  notKeyword : ∀ t behind, token? line rest = .ok (some t, behind) → NotKeyword t

theorem of_modifiersFrom {line : List Char} {limit : Nat} {start set : Modifiers} {cs rest : List Char}
    (h : modifiersFrom line limit start cs = .ok (set, rest)) (enough : cs.length ≤ limit)
    (old : Visible start) : AfterModifiers line set rest cs := by
  induction limit generalizing start cs with
  | zero =>
    obtain rfl : cs = [] := List.length_eq_zero_iff.1 (Nat.le_zero.1 enough)
    cases h
    exact ⟨old, List.suffix_refl _, id, by simp⟩
  | succ limit ih =>
    simp only [modifiersFrom] at h
    split at h
    · cases h
    · rename_i none
      cases h
      refine ⟨old, List.suffix_refl _, id, fun t behind next => ?_⟩
      rw [none] at next
      cases next
    · rename_i t more taken
      obtain ⟨whole, token, ends⟩ := token?_eq_some_iff.1 taken
      split at h
      · rename_i m named
        have shorter : more.length ≤ limit := by
          have total := length_dropSpaces_le cs
          have filled := List.length_pos_iff.2 token.filled
          rw [whole, List.length_append] at total
          omega
        have written : m.keyword?.isSome := by simp [keyword?_of_ofKeyword? named]
        have later := ih h shorter (old.insert written)
        have behind : more <:+ cs := (whole ▸ List.suffix_append t more).trans (dropSpaces_suffix cs)
        exact ⟨later.written, later.suffix.trans behind, fun _ => later.atSpace ends, later.notKeyword⟩
      · rename_i other
        cases h
        refine ⟨old, List.suffix_refl _, id, fun u behind next => ?_⟩
        rw [taken] at next
        cases next
        exact other

/-- Modifiers that were read are all written, and no keyword comes next. -/
theorem of_modifiers {line cs rest : List Char} {set : Modifiers}
    (h : modifiers line cs = .ok (set, rest)) : AfterModifiers line set rest cs :=
  of_modifiersFrom h (Nat.le_refl _) visible_none

end ApiSurface.Line
