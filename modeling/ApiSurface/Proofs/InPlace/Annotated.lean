import ApiSurface.Proofs.Annotated.Accepted
import ApiSurface.Proofs.InPlace.Scan

/-!
Annotations read in place. The parser of annotations and that of values call each other, and each call
gets a place in the text. What makes them end is checked in the definitions: the places where an
annotation and an array ask for their values are behind the place where they were asked for themselves,
an annotation as a value is asked for no earlier than the value, every end that is handed back is behind
the place asked for, and all are in the text. Main statements: no check fails, and nothing is cut where no
character begins (`follows_parseUse`, `follows_parseValue`); so the parser of a line is never stuck, and
says what the reader says (`parsePrefix_eq`, `parseLine_eq`).
-/

namespace ApiSurface.InPlace

open ApiSurface.Text ApiSurface.Annotated

/-! ### Words and numbers -/

/-- A word, and where it ends. -/
def word (what : String) (s : List Char) (i : Nat) : Run UseFault (List Char × Nat) := do
  let start := skipSpaces s i
  let rest ← sliceFrom s start
  let stop := match find? [' '] rest with
    | some j => start + j
    | none => byteLength s
  if start = stop then throw (.missing what)
  else do
    let w ← slice s start stop
    return (w, stop)

/-- A number that is at most `bound`. -/
def number (bound : Nat) (what : String) (s : List Char) (i : Nat) : Run UseFault (Nat × Nat) := do
  let (w, stop) ← word what s i
  match readDecimal? bound w with
  | some n => return (n, stop)
  | none => throw (.badNumber what w)

/-- An index or a dash. -/
def index (what : String) (s : List Char) (i : Nat) : Run UseFault (Option UInt16 × Nat) := do
  let (w, stop) ← word what s i
  if w = ['-'] then return (none, stop)
  else
    match readDecimal? 0xFFFF w with
    | some n => return (some (UInt16.ofNat n), stop)
    | none => throw (.badNumber what w)

/-- The place of a type annotation. -/
def place (s : List Char) (i : Nat) : Run UseFault (TypePlace × Nat) := do
  let (targetType, i) ← number 0xFF "type annotation target type" s i
  let (typeIndex, i) ← index "type index" s i
  let (boundIndex, i) ← index "bound index" s i
  let (parameterIndex, i) ← index "parameter index" s i
  let (path, i) ← word "type path" s i
  let path := if path = ['-'] then "" else String.ofList path
  return (⟨UInt8.ofNat targetType, typeIndex, boundIndex, parameterIndex, path⟩, i)

/-- The target and, for a type annotation, the place. -/
def target (s : List Char) (i : Nat) : Run UseFault ((UInt32 × Option TypePlace) × Nat) := do
  let rest ← sliceFrom s i
  if placedUseLead.isPrefixOf rest then do
    let (target, i) ← number 0xFFFFFFFF "annotation target" s (i + byteLength placedUseLead - 1)
    let (place, i) ← place s i
    return ((UInt32.ofNat target, some place), i)
  else if useLead.isPrefixOf rest then do
    let (target, i) ← number 0xFFFFFFFF "annotation target" s (i + byteLength useLead - 1)
    return ((UInt32.ofNat target, none), i)
  else throw .noUse

/-! ### Names and types -/

/-- A name in front of a mark, and where the mark ends. -/
def nameBefore (mark : Char) (missing : UseFault) (bad : List Char → UseFault) (s : List Char) (i : Nat) :
    Run UseFault (List Char × Nat) := do
  let rest ← sliceFrom s i
  match find? [mark] rest with
  | none => throw missing
  | some j => do
    let name ← slice s i (i + j)
    let name := trim name
    if name.isEmpty ∨ ' ' ∈ name then throw (bad name) else return (name, i + j + 1)

/-- The name of the annotation. -/
def name (s : List Char) (i : Nat) : Run UseFault (List Char × Nat) :=
  nameBefore '(' .noElements .badName s (skipSpaces s i)

/-- The name of an element of this type. -/
def elementName (type s : List Char) (i : Nat) : Run UseFault (List Char × Nat) :=
  nameBefore '=' (.noEquals type) .badElementName s i

/-- Where pairs of square brackets end. -/
def dimensionsEnd {ε : Type} (s : List Char) (i : Nat) : Run ε Nat := do
  let rest ← sliceFrom s i
  if ['[', ']'].isPrefixOf rest then do
    let ⟨_⟩ ← check (Ahead s i (i + 2))
    dimensionsEnd s (i + 2)
  else return i
termination_by byteLength s - i
decreasing_by
  rename_i ahead
  unfold Ahead at ahead
  omega

/-- The type of an element, and where it ends. -/
def elementType (s : List Char) (i : Nat) : Run UseFault (List Char × Nat) := do
  let rest ← sliceFrom s i
  let stop ←
    if (classTypeLead ++ ['<']).isPrefixOf rest then do
      let close ← mapError .bracket (matchingClose s (i + byteLength classTypeLead))
      dimensionsEnd s (close + 1)
    else
      match find? [' '] rest with
      | none => throw .noElementName
      | some j => pure (i + j)
  let type ← slice s i stop
  return (type, stop)

/-! ### Values -/

/-- A string. -/
def stringValue (s : List Char) (i : Nat) : Run UseFault (ElementValue × Nat) := do
  match ← skipQuoted s i with
  | none => throw .unterminatedString
  | some close => do
    let inside ← slice s (i + 1) close
    match Literal.unescape inside with
    | .error fault => throw (.escape fault)
    | .ok text => return (.string (String.ofList text), close + 1)

/-- A character, which stays as it is written. -/
def characterValue (s : List Char) (i : Nat) : Run UseFault (ElementValue × Nat) := do
  match ← skipQuoted s i with
  | none => throw .unterminatedCharacter
  | some close => do
    let text ← slice s i (close + 1)
    return (.literal (String.ofList text), close + 1)

/-- A value that is no string, array or annotation. -/
def literalValue (s : List Char) (i : Nat) : Run UseFault (ElementValue × Nat) := do
  let stop ← mapError .bracket (scanTo [',', ')', ']'] s i)
  let text ← slice s i stop
  let text := trimEnd text
  if text.isEmpty then throw .emptyValue else return (.literal (String.ofList text), stop)

/-- Further on, less of the text is left to read. -/
theorem closer_of_ahead {s : List Char} {i j : Nat} (h : Ahead s i j) (a b : Nat) :
    Prod.Lex (· < ·) (· < ·) (byteLength s - j, a) (byteLength s - i, b) := by
  refine Prod.Lex.left _ _ ?_
  unfold Ahead at h
  omega

theorem closer_of_le {s : List Char} {i j a b : Nat} (h : i ≤ j) (less : a < b) :
    Prod.Lex (· < ·) (· < ·) (byteLength s - j, a) (byteLength s - i, b) := by
  rw [Prod.lex_def]
  dsimp only
  omega

mutual

/-- The annotation that begins here, and where it ends. -/
def parseUse (s : List Char) (start : Nat) : Run UseFault (AnnotationUse × Nat) := do
  let ((target, place), i) ← target s start
  let (name, i) ← name s i
  let ⟨_⟩ ← check (Ahead s start i)
  let (elements, stop) ← parseElements s i
  return (⟨target, String.ofList name, elements, place⟩, stop)
termination_by (byteLength s - start, 0)
decreasing_by exact closer_of_ahead (by assumption) ..

/-- The elements from here on, and where the parenthesis behind them ends. -/
def parseElements (s : List Char) (here : Nat) : Run UseFault (List AnnotationElement × Nat) := do
  let start := skipSpaces s here
  match byteAt? s start with
  | none => throw .unterminated
  | some c =>
    if c = ')' then return ([], start + 1)
    else do
      let (type, i) ← elementType s start
      let (name, i) ← elementName type s i
      let ⟨_⟩ ← check (Ahead s here i)
      let (value, stop) ← parseValue s i
      let ⟨_⟩ ← check (Ahead s i stop)
      let element := ⟨String.ofList type, String.ofList name, value⟩
      let i := skipSpaces s stop
      if byteAt? s i = some ',' then do
        let ⟨_⟩ ← check (Ahead s here (i + 1))
        let (more, stop) ← parseElements s (i + 1)
        return (element :: more, stop)
      else if byteAt? s i = some ')' then return ([element], i + 1)
      else throw .elementsNotSeparated
termination_by (byteLength s - here, 0)
decreasing_by all_goals exact closer_of_ahead (by assumption) ..

/-- The value asked for here, and where it ends. -/
def parseValue (s : List Char) (start : Nat) : Run UseFault (ElementValue × Nat) := do
  let i := skipSpaces s start
  match byteAt? s i with
  | none => throw .noValue
  | some c =>
    if c = '[' then do
      let first := skipSpaces s (i + 1)
      if byteAt? s first = some ']' then return (.array [], first + 1)
      else do
        let ⟨_⟩ ← check (Ahead s start first)
        let (values, stop) ← parseValues s first
        return (.array values, stop)
    else if c = '"' then stringValue s i
    else if c = '\'' then characterValue s i
    else do
      let rest ← sliceFrom s i
      if beginsUse rest then do
        -- the annotation may be asked for at the place of the value itself
        let ⟨_⟩ ← check (start ≤ i)
        let (use, stop) ← parseUse s i
        let ⟨_⟩ ← check (Ahead s i stop)
        return (.nested use, stop)
      else literalValue s i
termination_by (byteLength s - start, 1)
decreasing_by
  · exact closer_of_ahead (by assumption) ..
  · exact closer_of_le (by assumption) (by decide)

/-- The values of an array from here on, and where the bracket behind them ends. -/
def parseValues (s : List Char) (start : Nat) : Run UseFault (List ElementValue × Nat) := do
  let (value, stop) ← parseValue s start
  let ⟨_⟩ ← check (Ahead s start stop)
  let i := skipSpaces s stop
  if byteAt? s i = some ',' then do
    let ⟨_⟩ ← check (Ahead s start (i + 1))
    let (more, stop) ← parseValues s (i + 1)
    return (value :: more, stop)
  else if byteAt? s i = some ']' then return ([value], i + 1)
  else throw .valuesNotSeparated
termination_by (byteLength s - start, 2)
decreasing_by
  · exact closer_of_le (Nat.le_refl start) (by decide)
  · exact closer_of_ahead (by assumption) ..

end

/-- The annotation at the front of a text, and the number of its bytes. -/
def parsePrefix (s : List Char) : Run UseFault (AnnotationUse × Nat) := parseUse s 0

/-- The annotation of a whole line. -/
def parseLine (line : List Char) : Run UseFault AnnotationUse := do
  let (use, stop) ← parsePrefix line
  let rest ← sliceFrom line stop
  if (trim rest).isEmpty then return use else throw .trailing

/-! ### Laws of words and numbers -/

variable {s cs rest : List Char} {what : String} {bound i j : Nat}

theorem follows_word (h : restAt? s i = some cs) :
    Follows s (Behind cs) (word what s i) (Annotated.word what cs) := by
  have start := restAt?_skipSpaces h
  have cut (w rest : List Char) (stop : Nat) (front : restAt? s (skipSpaces s i) = some (w ++ rest))
      (behind : restAt? s stop = some rest) :
      Follows s (Behind cs)
        (if skipSpaces s i = stop then throw (UseFault.missing what)
          else slice s (skipSpaces s i) stop >>= fun w => pure (w, stop))
        (if w.isEmpty then .error (UseFault.missing what) else .ok (w, rest)) := by
    by_cases empty : w = []
    · subst empty
      rw [if_pos (place_unique front behind)]
      exact Follows.fault _
    · have passed : Behind (dropSpaces cs) rest :=
        Option.some.inj (front.symm.trans start) ▸ Behind.of_append empty rest
      rw [if_neg (Nat.ne_of_lt (passed.ahead start behind).1), if_neg (by simpa using empty),
        slice_of_restAt? front behind]
      exact Follows.value _ behind (passed.mono (dropSpaces_suffix cs))
  rw [word, Annotated.word, sliceFrom_of_restAt? start, done_ok_bind, cutBefore_eq]
  cases found : cutAt? [' '] (dropSpaces cs) with
  | none =>
    rw [find?_eq_none found]
    exact cut _ [] _ (by simpa using start) (restAt?_byteLength s)
  | some parts =>
    obtain ⟨before, after⟩ := parts
    obtain ⟨place, front, behind⟩ := find?_of_cutAt? found start
    rw [place]
    exact cut before (' ' :: after) _ front behind

theorem follows_number (h : restAt? s i = some cs) :
    Follows s (Behind cs) (number bound what s i) (Annotated.number bound what cs) := by
  have list : Annotated.number bound what cs = Annotated.word what cs >>= fun found =>
      match readDecimal? bound found.1 with
      | some n => .ok (n, found.2)
      | none => .error (.badNumber what found.1) := by
    unfold Annotated.number
    cases Annotated.word what cs <;> rfl
  rw [list]
  refine (follows_word h).bind fun w j rest place behind => ?_
  dsimp only
  cases readDecimal? bound w with
  | none => exact Follows.fault _
  | some n => exact Follows.value n place behind

theorem follows_index (h : restAt? s i = some cs) :
    Follows s (Behind cs) (index what s i) (Annotated.index what cs) := by
  have list : Annotated.index what cs = Annotated.word what cs >>= fun found =>
      if found.1 = ['-'] then .ok (none, found.2)
      else
        match readDecimal? 0xFFFF found.1 with
        | some n => .ok (some (UInt16.ofNat n), found.2)
        | none => .error (.badNumber what found.1) := by
    unfold Annotated.index
    cases Annotated.word what cs <;> rfl
  rw [list]
  refine (follows_word h).bind fun w j rest place behind => ?_
  dsimp only
  split
  · exact Follows.value none place behind
  · cases readDecimal? 0xFFFF w with
    | none => exact Follows.fault _
    | some n => exact Follows.value _ place behind

theorem follows_place (h : restAt? s i = some cs) : Follows s (Behind cs) (place s i) (Annotated.place cs) := by
  refine (follows_number h).bind fun targetType i cs₁ place first => ?_
  refine (follows_index place).bind fun typeIndex i cs₂ place second => ?_
  refine (follows_index place).bind fun boundIndex i cs₃ place third => ?_
  refine (follows_index place).bind fun parameterIndex i cs₄ place fourth => ?_
  refine (follows_word place).bind fun path i cs₅ place fifth => ?_
  refine Follows.value _ place (first.of_suffix ?_)
  exact ((fifth.suffix.trans fourth.suffix).trans third.suffix).trans second.suffix

/-- Behind the first word of an annotation comes the space of its lead. -/
theorem of_lead (lead : List Char) (h : restAt? s i = some ((lead ++ [' ']) ++ rest)) :
    restAt? s (i + byteLength (lead ++ [' ']) - 1) = some (' ' :: rest) ∧ ' ' :: rest <:+ (lead ++ [' ']) ++ rest := by
  have space : ' '.utf8Size = 1 := utf8Size_of_ascii (by decide)
  have place : i + byteLength (lead ++ [' ']) - 1 = i + byteLength lead := by simp [space]
  rw [List.append_assoc] at h ⊢
  exact ⟨place ▸ restAt?_append h, List.suffix_append ..⟩

theorem isPrefixOf_eq_isSome (lead cs : List Char) : lead.isPrefixOf cs = (afterLead? lead cs).isSome := by
  cases found : afterLead? lead cs with
  | none =>
    have no := isPrefixOf?_eq_none_iff.1 found
    simpa [List.isPrefixOf_iff_prefix, ← Bool.not_eq_true] using no
  | some rest => simpa [List.isPrefixOf_iff_prefix] using ⟨rest, (afterLead?_eq_some_iff.1 found).symm⟩

theorem follows_target (h : restAt? s i = some cs) : Follows s (Behind cs) (target s i) (Annotated.target cs) := by
  unfold target Annotated.target
  rw [sliceFrom_of_restAt? h, done_ok_bind, isPrefixOf_eq_isSome, isPrefixOf_eq_isSome]
  cases placed : afterLead? placedUseLead cs with
  | some behind =>
    obtain rfl := afterLead?_eq_some_iff.1 placed
    obtain ⟨space, inside⟩ : restAt? s (i + byteLength placedUseLead - 1) = some (' ' :: behind) ∧ _ :=
      of_lead "annoEx".toList h
    refine (follows_number space).bind fun target i cs₁ place first => ?_
    refine (follows_place place).bind fun p i cs₂ place second => ?_
    exact Follows.value _ place ((first.mono inside).of_suffix second.suffix)
  | none =>
    simp only [Option.isSome_none, Bool.false_eq_true, if_false]
    cases plain : afterLead? useLead cs with
    | some behind =>
      obtain rfl := afterLead?_eq_some_iff.1 plain
      obtain ⟨space, inside⟩ : restAt? s (i + byteLength useLead - 1) = some (' ' :: behind) ∧ _ :=
        of_lead "anno".toList h
      refine (follows_number space).bind fun target i cs₁ place first => ?_
      exact Follows.value _ place (first.mono inside)
    | none => exact Follows.fault _

/-! ### Laws of names and types -/

theorem follows_nameBefore {mark : Char} (ascii : IsAscii mark) (missing : UseFault) (bad : List Char → UseFault)
    (h : restAt? s i = some cs) :
    Follows s (Behind cs) (nameBefore mark missing bad s i)
      (match cutAt? [mark] cs with
      | none => .error missing
      | some (name, rest) =>
        let name := trim name
        if name.isEmpty ∨ ' ' ∈ name then .error (bad name) else .ok (name, rest)) := by
  rw [nameBefore, sliceFrom_of_restAt? h, done_ok_bind]
  cases found : cutAt? [mark] cs with
  | none =>
    rw [find?_eq_none found]
    exact Follows.fault _
  | some parts =>
    obtain ⟨before, after⟩ := parts
    obtain ⟨place, front, behind⟩ := find?_of_cutAt? found h
    rw [place]
    simp only [slice_of_restAt? front behind, done_ok_bind]
    split
    · exact Follows.fault _
    · refine Follows.value _ (restAt?_cons_ascii ascii behind) ?_
      exact (Behind.cons mark after).mono ⟨before, by simp [eq_of_cutAt found]⟩

theorem follows_name (h : restAt? s i = some cs) : Follows s (Behind cs) (name s i) (Annotated.name cs) := by
  refine Follows.mono ?_ fun rest behind => Behind.mono behind (dropSpaces_suffix cs)
  exact follows_nameBefore (by decide) .noElements .badName (restAt?_skipSpaces h)

theorem follows_elementName (type : List Char) (h : restAt? s i = some cs) :
    Follows s (Behind cs) (elementName type s i) (Annotated.elementName type cs) :=
  follows_nameBefore (by decide) (.noEquals type) .badElementName h

theorem reaches_dimensionsEnd {ε : Type} (h : restAt? s i = some cs) :
    Reaches s (dimensionsEnd s i : Run ε Nat) (.ok (dimensions cs).2) := by
  fun_induction dimensions cs generalizing i with
  | case1 cs more rest found ih =>
    have behind : restAt? s (i + 2) = some cs := restAt?_append (a := ['[', ']']) h
    have ahead : Ahead s i (i + 2) := (Behind.of_append (List.cons_ne_nil '[' [']']) cs).ahead h behind
    rw [dimensionsEnd, sliceFrom_of_restAt? h, done_ok_bind, if_pos (by simp), check_of ahead, done_ok_bind]
    simpa [found] using ih behind
  | case2 cs other =>
    have none : ¬['[', ']'].isPrefixOf cs := by
      rw [List.isPrefixOf_iff_prefix]
      rintro ⟨rest, rfl⟩
      exact other rest rfl
    rw [dimensionsEnd, sliceFrom_of_restAt? h, done_ok_bind, if_neg none]
    exact ⟨i, rfl, h⟩

theorem follows_elementType (h : restAt? s i = some cs) :
    Follows s (· <:+ cs) (elementType s i) (Annotated.elementType cs) := by
  have cut {type rest : List Char} {stop : Nat} (whole : cs = type ++ rest) (behind : restAt? s stop = some rest) :
      Follows s (· <:+ cs) (slice s i stop >>= fun type => pure (type, stop) : Run UseFault (List Char × Nat))
        (.ok (type, rest)) := by
    rw [slice_of_restAt? (whole ▸ h) behind]
    exact Follows.value type behind ⟨type, whole.symm⟩
  unfold elementType Annotated.elementType
  rw [sliceFrom_of_restAt? h, done_ok_bind, isPrefixOf_eq_isSome]
  cases lead : afterLead? (classTypeLead ++ ['<']) cs with
  | some inside =>
    obtain rfl := afterLead?_eq_some_iff.1 lead
    have bracket : restAt? s (i + byteLength classTypeLead) = some ('<' :: inside) :=
      restAt?_append (b := '<' :: inside) (by simpa using h)
    have spec := matchingClose_spec (by decide) bracket
    simp only [Option.isSome_some, if_true]
    cases closed : throughClose '<' inside with
    | error fault =>
      rw [closed] at spec
      rw [spec]
      exact Follows.fault _
    | ok found =>
      obtain ⟨arguments, behind⟩ := found
      rw [closed] at spec
      obtain ⟨close, run, place⟩ := spec
      obtain ⟨stop, run', place'⟩ := reaches_dimensionsEnd (ε := UseFault) place
      have all : behind = (dimensions behind).1 ++ (dimensions behind).2 := (of_dimensions rfl).2
      simp only [run, mapError_done, Except.mapError, done_ok_bind, run']
      refine cut ?_ place'
      rw [← throughClose_append closed, List.append_assoc, List.append_assoc, List.cons_append, List.append_assoc, ← all]
      rfl
  | none =>
    simp only [Option.isSome_none, Bool.false_eq_true, if_false]
    cases found : cutAt? [' '] cs with
    | none =>
      rw [find?_eq_none found]
      exact Follows.fault _
    | some parts =>
      obtain ⟨type, behind⟩ := parts
      obtain ⟨place, -, behind⟩ := find?_of_cutAt? found h
      simp only [place, pure_eq_done, done_ok_bind]
      exact cut (by simpa using eq_of_cutAt found) behind

/-! ### Laws of values -/

theorem follows_stringValue (h : restAt? s i = some ('"' :: cs)) :
    Follows s (· <:+ cs) (stringValue s i) (Annotated.stringValue cs) := by
  have spec := skipQuoted_spec (ε := UseFault) (by decide) h
  unfold stringValue Annotated.stringValue
  cases found : throughQuote? '"' cs with
  | none =>
    rw [found] at spec
    rw [spec]
    exact Follows.fault _
  | some parts =>
    obtain ⟨inside, rest⟩ := parts
    rw [found] at spec
    obtain ⟨close, run, start, place⟩ := spec
    simp only [run, done_ok_bind, slice_of_restAt? start place]
    cases Literal.unescape inside with
    | error fault => exact Follows.fault _
    | ok text =>
      refine Follows.value _ (restAt?_cons_ascii (by decide) place) ⟨inside ++ ['"'], ?_⟩
      simpa using throughQuote?_append found

theorem follows_characterValue (h : restAt? s i = some ('\'' :: cs)) :
    Follows s (· <:+ cs) (characterValue s i) (Annotated.characterValue cs) := by
  have spec := skipQuoted_spec (ε := UseFault) (by decide) h
  unfold characterValue Annotated.characterValue
  cases found : throughQuote? '\'' cs with
  | none =>
    rw [found] at spec
    rw [spec]
    exact Follows.fault _
  | some parts =>
    obtain ⟨inside, rest⟩ := parts
    rw [found] at spec
    obtain ⟨close, run, -, place⟩ := spec
    have whole : '\'' :: cs = ('\'' :: inside ++ ['\'']) ++ rest := by simp [← throughQuote?_append found]
    have behind : restAt? s (close + 1) = some rest := restAt?_cons_ascii (by decide) place
    simp only [run, done_ok_bind, slice_of_restAt? (whole ▸ h) behind]
    refine Follows.value _ behind ⟨inside ++ ['\''], ?_⟩
    simpa using throughQuote?_append found

theorem follows_literalValue (h : restAt? s i = some cs) :
    Follows s (Behind cs) (literalValue s i) (Annotated.literalValue cs) := by
  have ends : ∀ c ∈ [',', ')', ']'], IsAscii c := by decide
  have spec := scan_spec (ε := UseFault) (List.Subset.refl brackets) ends h
  unfold literalValue Annotated.literalValue
  simp only [Text.scanTo, scanTo]
  cases list : scanFrom brackets [',', ')', ']'] .top cs with
  | error fault =>
    rw [list] at spec
    rw [spec]
    exact Follows.fault _
  | ok found =>
    obtain ⟨piece, rest⟩ := found
    rw [list] at spec
    obtain ⟨stop, run, place, between⟩ := spec
    simp only [run, mapError_done, Except.mapError, done_ok_bind, between]
    cases piece with
    | nil => exact Follows.fault _
    | cons c piece =>
      split
      · exact Follows.fault _
      · exact Follows.value _ place ⟨c, piece ++ rest, (scanFrom_append list).symm, List.suffix_append ..⟩

/-! ### Annotations and values -/

theorem byteAt?_ne {d : Char} (ascii : IsAscii d) (other : ∀ rest, cs ≠ d :: rest) (h : restAt? s i = some cs) :
    byteAt? s i ≠ some d := by
  cases cs with
  | nil => simp [byteAt?_of_restAt?_nil h]
  | cons c cs =>
    obtain ⟨b, byte, same⟩ := exists_byteAt? h
    rw [byte]
    rintro ⟨⟩
    exact other cs (by rw [(same d ascii).1 rfl])

/-- Behind an item comes a comma, the end of the list, or neither. -/
theorem separator_cases (close : Char) (cs : List Char) :
    (∃ rest, cs = ',' :: rest) ∨ (∃ rest, cs = close :: rest) ∨
      ((∀ rest, cs ≠ ',' :: rest) ∧ ∀ rest, cs ≠ close :: rest) := by
  by_cases comma : ∃ rest, cs = ',' :: rest
  · exact .inl comma
  · by_cases closes : ∃ rest, cs = close :: rest
    · exact .inr (.inl closes)
    · exact .inr (.inr ⟨fun rest same => comma ⟨rest, same⟩, fun rest same => closes ⟨rest, same⟩⟩)

/-- The parsers in place follow the readers that may call each other so often, wherever fewer characters are
left than that. -/
structure Followed (s : List Char) (depth : Nat) : Prop where
  use : ∀ {cs i}, restAt? s i = some cs → 2 * cs.length + 1 ≤ depth →
    Follows s (Behind cs) (parseUse s i) (readUse depth cs)
  elements : ∀ {cs i}, restAt? s i = some cs → 2 * cs.length + 1 ≤ depth →
    Follows s (Behind cs) (parseElements s i) (readElements depth cs)
  value : ∀ {cs i}, restAt? s i = some cs → 2 * cs.length + 2 ≤ depth →
    Follows s (Behind cs) (parseValue s i) (readValue depth cs)
  values : ∀ {cs i}, restAt? s i = some cs → 2 * cs.length + 3 ≤ depth →
    Follows s (Behind cs) (parseValues s i) (readValues depth cs)

namespace Followed

variable {depth : Nat}

theorem succ_use (h : Followed s depth) (start : restAt? s i = some cs) (enough : 2 * cs.length + 1 ≤ depth + 1) :
    Follows s (Behind cs) (parseUse s i) (readUse (depth + 1) cs) := by
  rw [parseUse, readUse]
  refine (follows_target start).bind fun target i₁ cs₁ place₁ first => ?_
  obtain ⟨target, typePlace⟩ := target
  refine (follows_name place₁).bind fun name i₂ cs₂ place₂ second => ?_
  have passed : Behind cs cs₂ := first.of_suffix second.suffix
  have bound := passed.length_lt
  simp only [check_of (passed.ahead start place₂), done_ok_bind]
  refine (h.elements place₂ (by omega)).bind fun elements i₃ cs₃ place₃ third => ?_
  exact Follows.value _ place₃ (passed.of_suffix third.suffix)

theorem succ_elements (h : Followed s depth) (start : restAt? s i = some cs)
    (enough : 2 * cs.length + 1 ≤ depth + 1) :
    Follows s (Behind cs) (parseElements s i) (readElements (depth + 1) cs) := by
  have front := restAt?_skipSpaces start
  have less := dropSpaces_suffix cs
  rw [parseElements, readElements]
  cases spaces : dropSpaces cs with
  | nil =>
    rw [spaces] at front
    rw [byteAt?_of_restAt?_nil front]
    exact Follows.fault _
  | cons c rest =>
    rw [spaces] at front less
    obtain ⟨b, byte, same⟩ := exists_byteAt? front
    simp only [byte, same ')' (by decide)]
    by_cases closes : c = ')'
    · subst closes
      rw [if_pos rfl, if_pos rfl]
      exact Follows.value [] (restAt?_cons_ascii (by decide) front) ((Behind.cons _ rest).mono less)
    · rw [if_neg closes, if_neg closes]
      refine (follows_elementType front).bind fun type i₁ cs₁ place₁ first => ?_
      refine (follows_elementName type place₁).bind fun name i₂ cs₂ place₂ second => ?_
      have passed : Behind cs cs₂ := (second.mono first).mono less
      have bound := passed.length_lt
      simp only [check_of (passed.ahead start place₂), done_ok_bind]
      refine (h.value place₂ (by omega)).bind fun value i₃ cs₃ place₃ third => ?_
      have last := restAt?_skipSpaces place₃
      have behind : Behind cs (dropSpaces cs₃) := passed.of_suffix ((dropSpaces_suffix cs₃).trans third.suffix)
      simp only [check_of (third.ahead place₂ place₃), done_ok_bind]
      obtain ⟨more, next⟩ | ⟨more, next⟩ | ⟨noComma, noEnd⟩ := separator_cases ')' (dropSpaces cs₃)
      · rw [next] at last behind ⊢
        have place₄ := restAt?_cons_ascii (by decide) last
        have further : Behind cs more := behind.of_suffix (List.suffix_cons ..)
        have bound := further.length_lt
        simp only [byteAt?_of_restAt?_cons (by decide) last, if_true, check_of (further.ahead start place₄), done_ok_bind]
        refine (h.elements place₄ (by omega)).bind fun elements i₅ cs₅ place₅ fifth => ?_
        exact Follows.value _ place₅ (further.of_suffix fifth.suffix)
      · rw [next] at last behind ⊢
        have byte := byteAt?_of_restAt?_cons (by decide) last
        have noComma : byteAt? s (skipSpaces s i₃) ≠ some ',' := by simp [byte]
        rw [if_neg noComma, if_pos byte]
        exact Follows.value _ (restAt?_cons_ascii (by decide) last) (behind.of_suffix (List.suffix_cons ..))
      · rw [if_neg (byteAt?_ne (by decide) noComma last), if_neg (byteAt?_ne (by decide) noEnd last)]
        split
        · exact absurd ‹_› (noComma _)
        · exact absurd ‹_› (noEnd _)
        · exact Follows.fault _

theorem succ_value (h : Followed s depth) (start : restAt? s i = some cs) (enough : 2 * cs.length + 2 ≤ depth + 1) :
    Follows s (Behind cs) (parseValue s i) (readValue (depth + 1) cs) := by
  have front := restAt?_skipSpaces start
  have less := dropSpaces_suffix cs
  rw [parseValue, readValue]
  cases spaces : dropSpaces cs with
  | nil =>
    rw [spaces] at front
    rw [byteAt?_of_restAt?_nil front]
    exact Follows.fault _
  | cons c rest =>
    rw [spaces] at front less
    have bound := less.length_le
    have passed : Behind cs rest := (Behind.cons c rest).mono less
    obtain ⟨b, byte, same⟩ := exists_byteAt? front
    simp only [byte, same '[' (by decide), same '"' (by decide), same '\'' (by decide)]
    by_cases array : c = '['
    · subst array
      rw [if_pos rfl, if_pos rfl]
      have first := restAt?_skipSpaces (restAt?_cons_ascii (by decide) front)
      have behind : Behind cs (dropSpaces rest) := passed.of_suffix (dropSpaces_suffix rest)
      by_cases empty : ∃ more, dropSpaces rest = ']' :: more
      · obtain ⟨more, empty⟩ := empty
        rw [empty] at first behind ⊢
        rw [if_pos (byteAt?_of_restAt?_cons (by decide) first)]
        exact Follows.value _ (restAt?_cons_ascii (by decide) first) (behind.of_suffix (List.suffix_cons ..))
      · have filled : ∀ more, dropSpaces rest ≠ ']' :: more := fun more same => empty ⟨more, same⟩
        have bound' := behind.length_lt
        rw [if_neg (byteAt?_ne (by decide) filled first)]
        simp only [check_of (behind.ahead start first), done_ok_bind]
        refine (h.values first (by omega)).bind fun values i₂ cs₂ place₂ second => ?_
        exact Follows.value _ place₂ (behind.of_suffix second.suffix)
    · rw [if_neg array, if_neg array]
      by_cases string : c = '"'
      · subst string
        rw [if_pos rfl, if_pos rfl]
        exact (follows_stringValue front).mono fun _ less' => passed.of_suffix less'
      · rw [if_neg string, if_neg string]
        by_cases character : c = '\''
        · subst character
          rw [if_pos rfl, if_pos rfl]
          exact (follows_characterValue front).mono fun _ less' => passed.of_suffix less'
        · rw [if_neg character, if_neg character, sliceFrom_of_restAt? front, done_ok_bind]
          cases begins : beginsUse (c :: rest) with
          | true =>
            simp only [if_true, check_of (le_skipSpaces s i), done_ok_bind]
            refine (h.use front (by omega)).bind fun use i₂ cs₂ place₂ second => ?_
            simp only [check_of (second.ahead front place₂), done_ok_bind]
            exact Follows.value _ place₂ (second.mono less)
          | false => exact (follows_literalValue front).mono fun _ behind => behind.mono less

theorem succ_values (h : Followed s depth) (start : restAt? s i = some cs) (enough : 2 * cs.length + 3 ≤ depth + 1) :
    Follows s (Behind cs) (parseValues s i) (readValues (depth + 1) cs) := by
  rw [parseValues, readValues]
  refine (h.value start (by omega)).bind fun value i₁ cs₁ place₁ first => ?_
  have last := restAt?_skipSpaces place₁
  have behind : Behind cs (dropSpaces cs₁) := first.of_suffix (dropSpaces_suffix cs₁)
  simp only [check_of (first.ahead start place₁), done_ok_bind]
  obtain ⟨more, next⟩ | ⟨more, next⟩ | ⟨noComma, noEnd⟩ := separator_cases ']' (dropSpaces cs₁)
  · rw [next] at last behind ⊢
    have place₂ := restAt?_cons_ascii (by decide) last
    have further : Behind cs more := behind.of_suffix (List.suffix_cons ..)
    have bound := further.length_lt
    simp only [byteAt?_of_restAt?_cons (by decide) last, if_true, check_of (further.ahead start place₂), done_ok_bind]
    refine (h.values place₂ (by omega)).bind fun values i₃ cs₃ place₃ third => ?_
    exact Follows.value _ place₃ (further.of_suffix third.suffix)
  · rw [next] at last behind ⊢
    have byte := byteAt?_of_restAt?_cons (by decide) last
    have noComma : byteAt? s (skipSpaces s i₁) ≠ some ',' := by simp [byte]
    rw [if_neg noComma, if_pos byte]
    exact Follows.value _ (restAt?_cons_ascii (by decide) last) (behind.of_suffix (List.suffix_cons ..))
  · rw [if_neg (byteAt?_ne (by decide) noComma last), if_neg (byteAt?_ne (by decide) noEnd last)]
    split
    · exact absurd ‹_› (noComma _)
    · exact absurd ‹_› (noEnd _)
    · exact Follows.fault _

end Followed

theorem followed (s : List Char) (depth : Nat) : Followed s depth := by
  induction depth with
  | zero => constructor <;> intro cs i start enough <;> omega
  | succ depth ih => exact ⟨ih.succ_use, ih.succ_elements, ih.succ_value, ih.succ_values⟩

theorem follows_parseUse (h : restAt? s i = some cs) :
    Follows s (Behind cs) (parseUse s i) (readUse (2 * cs.length + 1) cs) :=
  (followed s _).use h (Nat.le_refl _)

theorem follows_parseElements (h : restAt? s i = some cs) :
    Follows s (Behind cs) (parseElements s i) (readElements (2 * cs.length + 1) cs) :=
  (followed s _).elements h (Nat.le_refl _)

theorem follows_parseValue (h : restAt? s i = some cs) :
    Follows s (Behind cs) (parseValue s i) (readValue (2 * cs.length + 2) cs) :=
  (followed s _).value h (Nat.le_refl _)

theorem follows_parseValues (h : restAt? s i = some cs) :
    Follows s (Behind cs) (parseValues s i) (readValues (2 * cs.length + 3) cs) :=
  (followed s _).values h (Nat.le_refl _)

theorem follows_parsePrefix (s : List Char) : Follows s (Behind s) (parsePrefix s) (takeUse s) :=
  (followed s _).use (restAt?_zero s) (by omega)

/-- The parser of annotations is never stuck, and takes as many bytes as the reader. -/
theorem parsePrefix_eq (s : List Char) :
    parsePrefix s = done ((takeUse s).map fun found => (found.1, byteLength s - byteLength found.2)) :=
  (follows_parsePrefix s).eq_done

theorem isEmpty_trim (cs : List Char) : (trim cs).isEmpty = allBlank cs := by
  rw [Bool.eq_iff_iff, List.isEmpty_iff, allBlank, List.all_eq_true]
  constructor
  · intro empty
    obtain ⟨lead, tail, whole, leads, tails⟩ := exists_eq_append_trim cs
    rw [empty, List.append_nil] at whole
    rw [whole]
    exact fun c mem => (List.mem_append.1 mem).elim (leads c) (tails c)
  · intro blank
    refine List.eq_nil_iff_forall_not_mem.2 fun c mem => ?_
    cases trimmed : trim cs with
    | nil => simp [trimmed] at mem
    | cons d ds =>
      have first := (trimmed_trim cs).1 d (by simp [trimmed])
      rw [blank d (mem_of_mem_trim (by simp [trimmed]))] at first
      cases first

theorem parseLine_eq (line : List Char) : parseLine line = done (ofLine line) := by
  have list : ofLine line = takeUse line >>= fun found =>
      if allBlank found.2 then .ok found.1 else .error .trailing := by
    unfold ofLine
    cases takeUse line <;> rfl
  rw [list]
  refine (follows_parsePrefix line).bind_done fun use stop rest place _ => ?_
  dsimp only
  rw [sliceFrom_of_restAt? place, done_ok_bind, isEmpty_trim]
  split <;> rfl

end ApiSurface.InPlace
