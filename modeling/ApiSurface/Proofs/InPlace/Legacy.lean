import ApiSurface.Legacy
import ApiSurface.Proofs.InPlace.Line
import ApiSurface.Proofs.Legacy.Tokens

/-!
Lines of the oldest formats rewritten in place. A line is scanned for the places of its tokens, and a token
is changed by putting another text between its places; where two tokens change, the later one is
replaced first, so that the places of the other one still hold. Main statement: no rule is ever stuck,
whether it decodes or encodes, and it gives what the rule on tokens gives (`decode_eq`, `encode_eq`).
-/

namespace ApiSurface.InPlace

open ApiSurface.Text ApiSurface.Legacy

/-! ### Array types -/

/-- An array descriptor as a source type. -/
def arrayToSource {ε : Type} (type : List Char) : Run ε (List Char) :=
  let dimensions := skip '[' type 0
  let array (element : List Char) := element ++ (List.replicate dimensions ['[', ']']).flatten
  if dimensions = 0 then return type
  else do
    let element ← sliceFrom type dimensions
    match (afterLead? ['L'] element).bind (beforeTail? [';']) with
    | some name => return array name
    | none =>
      if byteLength element = 1 then do
        let letter ← the (byteAt? element 0)
        match Primitive.ofLetter? letter with
        | some p => return array p.name
        | none => return type
      else return type

/-! ### Tokens -/

/-- A place in a text where a token begins, and the one where it ends. -/
abbrev Span := Nat × Nat

/-- The places of the tokens from here on. -/
def tokenSpansFrom (line : List Char) (i : Nat) : Run Malformed (List Span) :=
  match _here : byteAt? line i with
  | none => return []
  | some c =>
    if c = ' ' then tokenSpansFrom line (i + 1)
    else do
      let stop ← liftBrackets line (scan legacyBrackets [' '] line [] i)
      let ⟨_⟩ ← check (i < stop)
      let more ← tokenSpansFrom line stop
      return (i, stop) :: more
termination_by byteLength line - i
decreasing_by all_goals
  have := lt_of_byteAt? _here
  omega

/-- The places of the tokens of a line. -/
def tokenSpans (line : List Char) : Run Malformed (List Span) := tokenSpansFrom line 0

/-- The token at these places. -/
def token {ε : Type} (line : List Char) (span : Span) : Run ε (List Char) := slice line span.1 span.2

/-- How many tokens in front are keywords of modifiers. -/
def countKeywords (line : List Char) : List Span → Run Malformed Nat
  | [] => return 0
  | span :: more => do
    let t ← token line span
    if (Modifier.ofKeyword? (String.ofList t)).isSome then (1 + ·) <$> countKeywords line more else return 0

/-- Which one is the first token after the tag that is no modifier. -/
def firstAfterModifiers (line : List Char) (spans : List Span) : Run Malformed Nat :=
  match spans with
  | [] => return 0
  | _ :: more => (1 + ·) <$> countKeywords line more

/-- The token of this number, with its places. -/
def tokenAt? (line : List Char) (spans : List Span) (k : Nat) : Run Malformed (Option (Span × List Char)) :=
  match spans[k]? with
  | none => return none
  | some span => do
    let t ← token line span
    return some (span, t)

/-- Which one is the first token behind modifiers and type parameters. -/
def firstType (line : List Char) (spans : List Span) : Run Malformed Nat := do
  let first ← firstAfterModifiers line spans
  let found ← tokenAt? line spans first
  return if found.any (listsParameters ·.2) then first + 1 else first

/-- Another text for the token of this number, if there is one. -/
def edit (change : List Char → Run Malformed (List Char)) (line : List Char) (spans : List Span) (k : Nat) :
    Run Malformed (List (Span × List Char)) := do
  match ← tokenAt? line spans k with
  | none => return []
  | some (span, t) => do
    let text ← change t
    return [(span, text)]

/-- The line with other texts between these places, the last one replaced first. -/
def apply (line : List Char) (edits : List (Span × List Char)) : Run Malformed (List Char) :=
  (edits.insertionSort fun a b => b.1.1 ≤ a.1.1).foldlM
    (fun out (span, text) => the (replaceRange? out span.1 span.2 text)) line

/-! ### Types -/

/-- A call with every argument changed. -/
def changeArguments (change : List Char → Run Malformed (List Char)) (line t : List Char) :
    Run Malformed (List Char) :=
  match find? ['('] t with
  | none => fail (.missing "argument list") line
  | some bracket => do
    let behind ← sliceFrom t (bracket + 1)
    let name ← slice t 0 bracket
    let parts ← liftBrackets line (splitTopLevel legacyBrackets ((beforeTail? [')'] behind).getD behind))
    let parts ← parts.mapM change
    return name ++ '(' :: join [','] parts ++ [')']

/-- The line with its types changed, if it is about a field, a method or a constructor. -/
def changeTypes (change : List Char → Run Malformed (List Char)) (line : List Char) : Run Malformed (List Char) :=
  let call := changeArguments change line
  match MemberKind.ofTag? (String.ofList (firstWord line)) with
  | some .field | some .method | some .constructor => do
    let spans ← tokenSpans line
    let k ← firstType line spans
    let edits ← match MemberKind.ofTag? (String.ofList (firstWord line)) with
      | some .field => edit change line spans k
      | some .method => do
        let here ← edit change line spans k
        let behind ← edit call line spans (k + 1)
        pure (here ++ behind)
      | _ => edit call line spans k
    apply line edits
  | _ => return line

/-! ### Constructors -/

/-- The places of the first token that is a call. -/
def findCall? (line : List Char) : List Span → Run Malformed (Option Span)
  | [] => return none
  | span :: more => do
    let t ← token line span
    if t.contains '(' then return some span else findCall? line more

/-- The line with another name for its constructor, if it has this one. -/
def renameConstructor (old new line : List Char) : Run Malformed (List Char) :=
  if !isConstructorLine line then return line
  else do
    let spans ← tokenSpans line
    match ← findCall? line spans with
    | none => fail (.missing "argument list") line
    | some span => do
      let t ← token line span
      match afterLead? old t with
      | some ('(' :: rest) => apply line [(span, new ++ '(' :: rest)]
      | _ => return line

/-! ### Constants -/

/-- The type on a field line without its constant. -/
def fieldType (declaration : List Char) : Run Malformed (List Char) := do
  let spans ← tokenSpans declaration
  let k ← firstAfterModifiers declaration spans
  match ← tokenAt? declaration spans k with
  | some (_, t) => return t
  | none => fail (.missing "field type") declaration

/-- A field line with its constant in the spelling of today. -/
def decodeField (line : List Char) : Run Malformed (List Char) :=
  if !isFieldLine line then return line
  else
    match find? constantMark line with
    | none => return line
    | some i => do
      let declaration ← slice line 0 i
      let rest ← sliceFrom line (i + byteLength constantMark)
      match beforeTail? constantEnd rest with
      | none => fail .valueNotClosed line
      | some old => do
        let type ← fieldType declaration
        match Literal.decodeConstant type old with
        | .error fault => fail (.constant fault) line
        | .ok modern => return declaration ++ " = ".toList ++ modern

/-- A field line with its constant in the old spelling. -/
def encodeField (line : List Char) : Run Malformed (List Char) :=
  if !isFieldLine line then return line
  else
    match find? " = ".toList line with
    | none => return line
    | some i => do
      let declaration ← slice line 0 i
      let type ← fieldType declaration
      let modern ← sliceFrom line (i + 3)
      return declaration ++ constantMark ++ Literal.encodeConstant type modern ++ constantEnd

/-! ### Rules -/

/-- The line of today for a line in a class of this name, unless it says nothing today. -/
def decode (rule : LegacyRule) (className : String) (line : List Char) : Run Malformed (Option (List Char)) :=
  match rule with
  | .nullSuper => return if line = nullSuperLine.toList then none else some line
  | .vmArrays => some <$> changeTypes arrayToSource line
  | .initConstructors => some <$> renameConstructor initName (simpleName className).toList line
  | .encodedConstants => some <$> decodeField line

/-- The old line for a line of today in a class of this name. -/
def encode (rule : LegacyRule) (className : String) (line : List Char) : Run Malformed (List Char) :=
  match rule with
  | .nullSuper => return line
  | .vmArrays => changeTypes (fun type => return arrayToDescriptor type) line
  | .initConstructors => renameConstructor (simpleName className).toList initName line
  | .encodedConstants => encodeField line

/-! ### Laws of array types -/

variable {line s cs type : List Char} {i k : Nat}

theorem ascii_of_ofLetter? {c : Char} {p : Primitive} (h : Primitive.ofLetter? c = some p) : IsAscii c := by
  have letter : p.letter = c := by simpa using List.find?_some h
  rw [← letter]
  cases p <;> decide

/-- The brackets in front of a type are as many as the bytes in front of the place behind them. -/
theorem skip_brackets (type : List Char) :
    restAt? type (skip '[' type 0) = some (type.dropWhile (· == '[')) ∧
      skip '[' type 0 = (type.takeWhile (· == '[')).length := by
  have place : restAt? type (skip '[' type 0) = some (type.dropWhile (· == '[')) :=
    restAt?_skip (by decide) (restAt?_zero type)
  refine ⟨place, ?_⟩
  have front : restAt? type (byteLength (type.takeWhile (· == '['))) = some (type.dropWhile (· == '[')) :=
    restAt?_eq_some_iff.2 ⟨_, List.takeWhile_append_dropWhile.symm, rfl⟩
  have low : ∀ c ∈ type.takeWhile (· == '['), c.toNat < 0x80 := by
    intro c mem
    have bracket : (c == '[') = true := List.mem_takeWhile_imp (p := (· == '[')) mem
    rw [beq_iff_eq.1 bracket]
    decide
  rw [place_unique place front, byteLength_of_ascii low]

theorem flatMap_brackets (brackets : List Char) :
    (brackets.flatMap fun _ => ['[', ']']) = (List.replicate brackets.length ['[', ']']).flatten := by
  simp [List.flatMap, List.map_const']

theorem arrayToSource_eq {ε : Type} (type : List Char) :
    (arrayToSource type : Run ε (List Char)) = done (.ok (Legacy.arrayToSource type)) := by
  obtain ⟨place, count⟩ := skip_brackets type
  unfold arrayToSource Legacy.arrayToSource
  simp only [count, List.isEmpty_iff, List.length_eq_zero_iff, flatMap_brackets] at place ⊢
  split
  · rfl
  · rw [sliceFrom_of_restAt? place, done_ok_bind]
    generalize type.dropWhile (· == '[') = element
    unfold elementOfDescriptor?
    cases (afterLead? ['L'] element).bind (beforeTail? [';']) with
    | some name => rfl
    | none =>
      dsimp only
      rcases element with _ | ⟨c, _ | ⟨d, more⟩⟩
      · rfl
      · by_cases ascii : IsAscii c
        · have one : byteLength [c] = 1 := by simp [utf8Size_of_ascii ascii]
          rw [if_pos one, byteAt?_of_restAt?_cons ascii (restAt?_zero [c]), the_some, done_ok_bind]
          dsimp only
          cases Primitive.ofLetter? c <;> rfl
        · have noLetter : Primitive.ofLetter? c = none := by
            by_contra letter
            obtain ⟨p, letter⟩ := Option.ne_none_iff_exists'.1 letter
            exact ascii (ascii_of_ofLetter? letter)
          have several : ¬byteLength [c] = 1 := by
            rw [byteLength_cons, byteLength_nil, Nat.add_zero, Char.utf8Size_eq_one_iff, UInt32.le_iff_toNat_le]
            exact fun small => ascii (Nat.lt_succ_of_le small)
          rw [if_neg several]
          dsimp only
          rw [noLetter]
          rfl
      · have several : ¬byteLength (c :: d :: more) = 1 := by
          have := c.utf8Size_pos
          have := d.utf8Size_pos
          simp only [byteLength_cons]
          omega
        rw [if_neg several]
        rfl

/-! ### Laws of tokens -/

/-- The places of the tokens that are not empty, when the first one begins here. -/
def spansFrom : Nat → List (List Char) → List Span
  | _, [] => []
  | i, t :: more =>
    if t.isEmpty then spansFrom (i + 1) more
    else (i, i + byteLength t) :: spansFrom (i + byteLength t + 1) more

theorem spansFrom_empty (i : Nat) (more : List (List Char)) : spansFrom i ([] :: more) = spansFrom (i + 1) more := rfl

theorem spansFrom_filled {t : List Char} (filled : t ≠ []) (i : Nat) (more : List (List Char)) :
    spansFrom i (t :: more) = (i, i + byteLength t) :: spansFrom (i + byteLength t + 1) more := by
  simp [spansFrom, filled]

theorem tokenSpansFrom_of_space (h : byteAt? line i = some ' ') : tokenSpansFrom line i = tokenSpansFrom line (i + 1) := by
  rw [tokenSpansFrom]
  split
  · simp_all
  · rename_i c here
    obtain rfl : ' ' = c := Option.some.inj (h.symm.trans here)
    rfl

theorem tokenSpansFrom_of_end (h : byteAt? line i = none) : tokenSpansFrom line i = done (.ok []) := by
  rw [tokenSpansFrom]
  split
  · rfl
  · simp_all

theorem tokenSpansFrom_of_token {b : Char} (h : byteAt? line i = some b) (noSpace : b ≠ ' ') :
    tokenSpansFrom line i =
      liftBrackets line (scan legacyBrackets [' '] line [] i) >>= fun stop =>
        check (i < stop) >>= fun _ => tokenSpansFrom line stop >>= fun more => pure ((i, stop) :: more) := by
  rw [tokenSpansFrom]
  split
  · simp_all
  · rename_i c here
    obtain rfl : b = c := Option.some.inj (h.symm.trans here)
    rw [if_neg noSpace]

/-- A token is scanned up to the end or to the space behind it. -/
theorem scan_token {c : Char} {piece rest : List Char} (h : restAt? line i = some (c :: cs)) (noSpace : c ≠ ' ')
    (taken : scanFrom legacyBrackets [' '] .top (c :: cs) = .ok (piece, rest)) :
    piece ≠ [] ∧ (scan legacyBrackets [' '] line [] i : Run BracketFault Nat) = done (.ok (i + byteLength piece)) ∧
      restAt? line (i + byteLength piece) = some rest ∧ rest.length < (c :: cs).length ∧ i < i + byteLength piece ∧
      ∀ d ∈ rest.head?, d = ' ' := by
  have ascii : ∀ c ∈ [' '], IsAscii c := by decide
  have spec := scan_spec (ε := Malformed) legacyBrackets_subset ascii h
  rw [taken] at spec
  obtain ⟨stop, run, place, -⟩ := spec
  have text := scanFrom_append taken
  have next := (scanFrom_eq_ok_iff.1 taken).2.2
  have filled : piece ≠ [] := by
    rintro rfl
    rw [List.nil_append] at text
    subst text
    exact noSpace (by simpa using next)
  have passed : Behind (c :: cs) rest := text ▸ Behind.of_append filled rest
  have further := (passed.ahead h place).1
  obtain rfl : stop = i + byteLength piece := place_unique place (restAt?_append (text ▸ h))
  exact ⟨filled, run, place, passed.length_lt, further, by simpa using next⟩

/-- The places of the tokens are those of the pieces between spaces that are not empty. -/
theorem tokenSpansFrom_eq (h : restAt? line i = some cs) :
    tokenSpansFrom line i =
      done (Line.liftBrackets line ((segments legacyBrackets ' ' cs).map (spansFrom i))) := by
  induction length : cs.length using Nat.strong_induction_on generalizing cs i with
  | _ n ih =>
    subst length
    cases cs with
    | nil =>
      rw [tokenSpansFrom_of_end (byteAt?_of_restAt?_nil h)]
      rfl
    | cons c cs =>
      obtain ⟨b, byte, same⟩ := exists_byteAt? h
      rw [segments, segmentsFrom_eq]
      by_cases space : c = ' '
      · subst space
        have behind := restAt?_cons_ascii (by decide) h
        rw [tokenSpansFrom_of_space (byteAt?_of_restAt?_cons (by decide) h),
          ih cs.length (by simp) behind rfl, scanFrom, if_pos (by simp)]
        simp only [ok_bind, segments]
        cases segmentsFrom legacyBrackets ' ' .top cs <;> rfl
      · rw [tokenSpansFrom_of_token byte (fun here => space ((same ' ' (by decide)).1 here))]
        cases list : scanFrom legacyBrackets [' '] .top (c :: cs) with
        | error fault =>
          have ascii : ∀ c ∈ [' '], IsAscii c := by decide
          have spec := scan_spec (ε := Malformed) legacyBrackets_subset ascii h
          rw [list] at spec
          rw [spec]
          rfl
        | ok found =>
          obtain ⟨piece, rest⟩ := found
          obtain ⟨filled, run, place, shorter, further, next⟩ := scan_token h space list
          rw [run, liftBrackets_done]
          simp only [Line.liftBrackets, done_ok_bind, check_of further, ok_bind]
          cases rest with
          | nil =>
            rw [tokenSpansFrom_of_end (byteAt?_of_restAt?_nil place)]
            simp only [done_ok_bind, map_ok, spansFrom_filled filled]
            rfl
          | cons d rest =>
            obtain rfl : d = ' ' := next d (by simp)
            have behind := restAt?_cons_ascii (by decide) place
            rw [tokenSpansFrom_of_space (byteAt?_of_restAt?_cons (by decide) place),
              ih rest.length ((Nat.lt_succ_self _).trans shorter) behind rfl]
            simp only [segments]
            cases segmentsFrom legacyBrackets ' ' .top rest with
            | error fault => rfl
            | ok more =>
              simp only [map_ok, Line.liftBrackets, done_ok_bind, spansFrom_filled filled]
              rfl

theorem tokenSpans_eq (line : List Char) : tokenSpans line = done ((cutTokens line).map (spansFrom 0)) := by
  rw [tokenSpans, tokenSpansFrom_eq (restAt?_zero line), cutTokens]
  cases segments legacyBrackets ' ' line <;> rfl

/-! ### Laws of places -/

variable {t u : List Char} {front mid tokens post : List (List Char)}

/-- Tokens with a space behind each. -/
def led (front : List (List Char)) : List Char := front.flatMap (· ++ [' '])

/-- The places of a token behind others. -/
def spanOf (front : List (List Char)) (t : List Char) : Span := (byteLength (led front), byteLength (led front ++ t))

theorem joinSpaced_split (front : List (List Char)) (t : List Char) (post : List (List Char)) :
    joinSpaced (front ++ t :: post) = led front ++ t ++ Line.spaced post := by
  induction front with
  | nil => simp [joinSpaced, join_eq_append_flatMap, led, Line.spaced]
  | cons p front ih =>
    have more : joinSpaced (p :: (front ++ t :: post)) = p ++ ' ' :: joinSpaced (front ++ t :: post) := by
      cases front <;> simp [joinSpaced]
    rw [List.cons_append, more, ih]
    simp [led]

theorem byteLength_led_concat (front : List (List Char)) (t : List Char) :
    byteLength (led (front ++ [t])) = byteLength (led front) + byteLength t + 1 := by
  have space : ' '.utf8Size = 1 := utf8Size_of_ascii (by decide)
  simp [led, space, Nat.add_assoc]

/-- A token is what stands between its places. -/
theorem slice?_spanOf (front : List (List Char)) (t : List Char) (post : List (List Char)) :
    slice? (joinSpaced (front ++ t :: post)) (spanOf front t).1 (spanOf front t).2 = some t := by
  rw [joinSpaced_split]
  exact slice?_eq_some_iff.2 ⟨led front, Line.spaced post, rfl, rfl, rfl⟩

/-- The places found hold the tokens that are not empty. -/
theorem forall₂_spansFrom (front tokens : List (List Char)) :
    List.Forall₂ (fun span t => slice? (joinSpaced (front ++ tokens)) span.1 span.2 = some t)
      (spansFrom (byteLength (led front)) tokens) (filled tokens) := by
  induction tokens generalizing front with
  | nil => exact .nil
  | cons t post ih =>
    have later := ih (front ++ [t])
    rw [List.append_assoc, List.singleton_append, byteLength_led_concat] at later
    by_cases empty : t = []
    · subst empty
      exact later
    · rw [spansFrom_filled empty, filled_cons_of_ne empty]
      refine .cons ?_ later
      have here := slice?_spanOf front t post
      rwa [spanOf, byteLength_append] at here

theorem forall₂_spans (tokens : List (List Char)) :
    List.Forall₂ (fun span t => slice? (joinSpaced tokens) span.1 span.2 = some t) (spansFrom 0 tokens) (filled tokens) :=
  forall₂_spansFrom [] tokens

theorem spansFrom_append (i : Nat) (front post : List (List Char)) :
    spansFrom i (front ++ post) = spansFrom i front ++ spansFrom (i + byteLength (led front)) post := by
  induction front generalizing i with
  | nil => simp [led, spansFrom]
  | cons t front ih =>
    have whole : byteLength (led (t :: front)) = byteLength t + 1 + byteLength (led front) := by
      have space : ' '.utf8Size = 1 := utf8Size_of_ascii (by decide)
      simp [led, space, Nat.add_assoc]
    by_cases empty : t = []
    · subst empty
      rw [List.cons_append, spansFrom_empty, spansFrom_empty, ih, whole, byteLength_nil]
      congr 2
      omega
    · rw [List.cons_append, spansFrom_filled empty, spansFrom_filled empty, ih, whole, List.cons_append]
      congr 3
      omega

theorem length_spans (tokens : List (List Char)) : (spansFrom 0 tokens).length = (filled tokens).length :=
  (forall₂_spans tokens).length_eq

theorem spans_getElem? (some : t ≠ []) (front post : List (List Char)) :
    (spansFrom 0 (front ++ t :: post))[(filled front).length]? = Option.some (spanOf front t) := by
  rw [spansFrom_append, Nat.zero_add, ← length_spans, List.getElem?_append_right (Nat.le_refl _), Nat.sub_self,
    spansFrom_filled some, spanOf, byteLength_append]
  rfl

/-- There is a token of each number, up to how many there are. -/
theorem exists_split (k : Nat) (tokens : List (List Char)) :
    (∃ front t post, tokens = front ++ t :: post ∧ t ≠ [] ∧ (filled front).length = k) ∨ (filled tokens).length ≤ k := by
  induction tokens generalizing k with
  | nil => exact .inr (Nat.zero_le k)
  | cons t post ih =>
    by_cases empty : t = []
    · subst empty
      refine (ih k).imp ?_ id
      rintro ⟨front, u, post, rfl, some, count⟩
      exact ⟨[] :: front, u, post, rfl, some, count⟩
    · rw [filled_cons_of_ne empty]
      cases k with
      | zero => exact .inl ⟨[], t, post, rfl, empty, rfl⟩
      | succ k =>
        refine (ih k).imp ?_ Nat.succ_le_succ
        rintro ⟨front, u, post, rfl, some, count⟩
        exact ⟨t :: front, u, post, rfl, some, by rw [filled_cons_of_ne empty, List.length_cons, count]⟩

/-! ### Laws of changed tokens -/

theorem changeToken_beyond (change : List Char → Except Malformed (List Char)) (h : (filled tokens).length ≤ k) :
    changeToken change k tokens = .ok tokens := by
  induction tokens generalizing k with
  | nil => rfl
  | cons t post ih =>
    by_cases empty : t = []
    · subst empty
      rw [changeToken_empty, ih h, map_ok]
    · rw [filled_cons_of_ne empty, List.length_cons] at h
      cases k with
      | zero => omega
      | succ k =>
        rw [changeToken, if_neg (by simpa using empty), ih (Nat.le_of_succ_le_succ h), map_ok]

theorem tokenAt?_split (some : t ≠ []) (front post : List (List Char)) :
    tokenAt? (joinSpaced (front ++ t :: post)) (spansFrom 0 (front ++ t :: post)) (filled front).length =
      done (.ok (Option.some (spanOf front t, t))) := by
  rw [tokenAt?, spans_getElem? some]
  dsimp only
  rw [token, slice, slice?_spanOf]
  rfl

theorem tokenAt?_beyond (h : (filled tokens).length ≤ k) :
    tokenAt? line (spansFrom 0 tokens) k = done (.ok none) := by
  rw [tokenAt?, List.getElem?_eq_none (by rwa [length_spans])]
  rfl

/-- The token of a number is that one among those that are not empty. -/
theorem exists_tokenAt? (tokens : List (List Char)) (k : Nat) :
    ∃ found, tokenAt? (joinSpaced tokens) (spansFrom 0 tokens) k = done (.ok found) ∧
      found.map (·.2) = (filled tokens)[k]? := by
  rcases exists_split k tokens with ⟨front, t, post, rfl, some, rfl⟩ | beyond
  · refine ⟨_, tokenAt?_split some front post, ?_⟩
    rw [filled_append, filled_cons_of_ne some, List.getElem?_append_right (Nat.le_refl _), Nat.sub_self]
    rfl
  · exact ⟨none, tokenAt?_beyond beyond, (List.getElem?_eq_none beyond).symm⟩

/-- One token is put in place of another one. -/
theorem replaceRange?_spanOf (front : List (List Char)) (t : List Char) (post : List (List Char)) (u : List Char) :
    replaceRange? (joinSpaced (front ++ t :: post)) (spanOf front t).1 (spanOf front t).2 u =
      some (joinSpaced (front ++ u :: post)) := by
  rw [joinSpaced_split, joinSpaced_split]
  exact replaceRange?_eq_some_iff.2 ⟨led front, t, Line.spaced post, rfl, rfl, rfl, rfl⟩

theorem apply_one (front : List (List Char)) (t : List Char) (post : List (List Char)) (u : List Char) :
    apply (joinSpaced (front ++ t :: post)) [(spanOf front t, u)] = done (.ok (joinSpaced (front ++ u :: post))) := by
  simp [apply, replaceRange?_spanOf]

/-- The later one of two tokens is replaced first, and the places of the other one still hold. -/
theorem apply_two (front : List (List Char)) (t : List Char) (mid : List (List Char)) (u : List Char)
    (post : List (List Char)) (t' u' : List Char) :
    apply (joinSpaced (front ++ t :: (mid ++ u :: post))) [(spanOf front t, t'), (spanOf (front ++ t :: mid) u, u')] =
      done (.ok (joinSpaced (front ++ t' :: (mid ++ u' :: post)))) := by
  have later : ¬(spanOf (front ++ t :: mid) u).1 ≤ (spanOf front t).1 := by
    simp only [spanOf, led, List.flatMap_append, List.flatMap_cons, byteLength_append, byteLength_cons]
    have := ' '.utf8Size_pos
    omega
  have second := replaceRange?_spanOf (front ++ t :: mid) u post u'
  have first := replaceRange?_spanOf front t (mid ++ u' :: post) t'
  simp only [List.append_assoc, List.cons_append] at second
  simp [apply, List.orderedInsert, later, second, first]

variable {change : List Char → Run Malformed (List Char)} {change' : List Char → Except Malformed (List Char)}

theorem edit_split (each : ∀ t, change t = done (change' t)) (some : t ≠ []) (front post : List (List Char)) :
    edit change (joinSpaced (front ++ t :: post)) (spansFrom 0 (front ++ t :: post)) (filled front).length =
      done ((change' t).map fun u => [(spanOf front t, u)]) := by
  rw [edit, tokenAt?_split some, done_ok_bind]
  dsimp only
  rw [each]
  cases change' t <;> rfl

theorem edit_beyond (h : (filled tokens).length ≤ k) : edit change line (spansFrom 0 tokens) k = done (.ok []) := by
  rw [edit, tokenAt?_beyond h]
  rfl

/-- One token changed in place. -/
theorem edit_apply (each : ∀ t, change t = done (change' t)) (tokens : List (List Char)) (k : Nat) :
    (edit change (joinSpaced tokens) (spansFrom 0 tokens) k >>= apply (joinSpaced tokens)) =
      done ((changeToken change' k tokens).map joinSpaced) := by
  rcases exists_split k tokens with ⟨front, t, post, rfl, some, rfl⟩ | beyond
  · rw [edit_split each some, changeToken_behind change' _ some]
    cases change' t with
    | error fault => rfl
    | ok u =>
      rw [map_ok, done_ok_bind, apply_one]
      rfl
  · rw [edit_beyond beyond, changeToken_beyond change' beyond]
    rfl

/-- A token and the one behind it changed in place; the change of the first one is never a fault. -/
theorem edit_edit_apply {always : List Char → List Char} {here : List Char → Run Malformed (List Char)}
    (first : ∀ t, here t = done (.ok (always t))) (each : ∀ t, change t = done (change' t))
    (tokens : List (List Char)) (k : Nat) :
    (edit here (joinSpaced tokens) (spansFrom 0 tokens) k >>= fun a =>
        edit change (joinSpaced tokens) (spansFrom 0 tokens) (k + 1) >>= fun b => apply (joinSpaced tokens) (a ++ b)) =
      done (changeToken change' (k + 1) tokens >>= fun tokens =>
        (changeToken (fun t => .ok (always t)) k tokens).map joinSpaced) := by
  rcases exists_split k tokens with ⟨front, t, post, rfl, some, rfl⟩ | beyond
  · rw [edit_split first some, map_ok, done_ok_bind]
    rcases exists_split 0 post with ⟨mid, u, post, rfl, some', none⟩ | beyond
    · have count : (filled front).length + 1 = (filled (front ++ t :: mid)).length := by
        rw [filled_append, filled_cons_of_ne some, List.length_append, List.length_cons, none]
      have edits := edit_split each some' (front ++ t :: mid) post
      have changed := changeToken_behind change' (front ++ t :: mid) some' post
      simp only [List.append_assoc, List.cons_append] at edits changed
      rw [count, edits, changed]
      cases change' u with
      | error fault => rfl
      | ok u' =>
        rw [map_ok, map_ok, done_ok_bind, ok_bind, changeToken_behind _ _ some]
        exact apply_two front t mid u post (always t) u'
    · have last : (filled (front ++ t :: post)).length ≤ (filled front).length + 1 := by
        rw [filled_append, filled_cons_of_ne some, List.length_append, List.length_cons]
        omega
      rw [edit_beyond last, changeToken_beyond change' last, done_ok_bind, ok_bind, changeToken_behind _ _ some]
      exact apply_one front t post (always t)
  · have last : (filled tokens).length ≤ k + 1 := Nat.le_succ_of_le beyond
    rw [edit_beyond beyond, edit_beyond last, changeToken_beyond change' last, done_ok_bind, done_ok_bind, ok_bind,
      changeToken_beyond _ beyond]
    rfl

/-! ### Laws of types -/

theorem countKeywords_eq {spans : List Span} {words : List (List Char)}
    (spelled : List.Forall₂ (fun span t => slice? line span.1 span.2 = some t) spans words) :
    countKeywords line spans =
      done (.ok (words.takeWhile fun t => (Modifier.ofKeyword? (String.ofList t)).isSome).length) := by
  induction spelled with
  | nil => rfl
  | @cons span t spans words here _ ih =>
    rw [countKeywords, token, slice, here, the_some, done_ok_bind, List.takeWhile_cons, ih]
    split
    · rw [map_done, map_ok, List.length_cons, Nat.add_comm]
    · rfl

theorem firstAfterModifiers_eq (tokens : List (List Char)) :
    firstAfterModifiers (joinSpaced tokens) (spansFrom 0 tokens) = done (.ok (placeAfterModifiers (filled tokens))) := by
  have spelled := forall₂_spans tokens
  generalize spansFrom 0 tokens = spans at spelled
  generalize filled tokens = words at spelled
  cases spelled with
  | nil => rfl
  | cons here more =>
    rw [firstAfterModifiers, countKeywords_eq more, map_done]
    rfl

theorem changeArguments_eq {always : List Char → List Char} (each : ∀ t, change t = done (.ok (always t)))
    (line t : List Char) : changeArguments change line t = done (Legacy.changeArguments line always t) := by
  unfold changeArguments Legacy.changeArguments
  cases found : cutAt? ['('] t with
  | none =>
    rw [find?_eq_none found]
    rfl
  | some parts =>
    obtain ⟨name, rest⟩ := parts
    obtain ⟨place, front, behind⟩ := find?_of_cutAt? found (restAt?_zero t)
    rw [Nat.zero_add] at behind
    have inside : restAt? t (byteLength name + 1) = some rest := restAt?_cons_ascii (by decide) behind
    simp only [place, sliceFrom_of_restAt? inside, slice_of_restAt? front behind, done_ok_bind, splitTopLevel_eq legacyBrackets_subset, liftBrackets_done]
    cases Line.liftBrackets line (items legacyBrackets ((beforeTail? [')'] rest).getD rest)) with
    | error fault => rfl
    | ok arguments =>
      rw [done_ok_bind, mapM_done (f := fun t => .ok (always t)) arguments fun t _ => each t,
        mapM_ok (g := always) fun t _ => rfl]
      rfl

/-- A line is the text of its tokens. -/
theorem of_cutTokens (h : cutTokens line = .ok tokens) : line = joinSpaced tokens := (cutTokens_eq_ok_iff.1 h).2.1

theorem firstType_eq (tokens : List (List Char)) :
    firstType (joinSpaced tokens) (spansFrom 0 tokens) =
      done (.ok (if ((filled tokens)[placeAfterModifiers (filled tokens)]?).any listsParameters then
        placeAfterModifiers (filled tokens) + 1 else placeAfterModifiers (filled tokens))) := by
  obtain ⟨found, run, word⟩ := exists_tokenAt? tokens (placeAfterModifiers (filled tokens))
  have list : found.any (listsParameters ·.2) =
      ((filled tokens)[placeAfterModifiers (filled tokens)]?).any listsParameters := by
    rw [← word, Option.any_map]
  simp only [firstType, firstAfterModifiers_eq, done_ok_bind, run, list, pure_eq_done]

theorem changeTypes_eq {always : List Char → List Char} (each : ∀ t, change t = done (.ok (always t)))
    (line : List Char) : changeTypes change line = done (Legacy.changeTypes always line) := by
  have call := changeArguments_eq each line
  cases tag : MemberKind.ofTag? (String.ofList (firstWord line)) with
  | none =>
    simp only [changeTypes, Legacy.changeTypes, tag]
    rfl
  | some kind =>
    cases kind <;> simp only [changeTypes, Legacy.changeTypes, tag, tokenSpans_eq]
    case superclass | superinterface | nested => rfl
    all_goals
      cases cut : cutTokens line with
      | error fault => rfl
      | ok tokens => ?_
      obtain rfl := of_cutTokens cut
      rw [map_ok, done_ok_bind, firstType_eq, done_ok_bind, ok_bind]
    case some.field.ok => exact edit_apply each tokens _
    case some.method.ok => exact edit_edit_apply each call tokens _
    case some.constructor.ok => exact edit_apply call tokens _

/-! ### Laws of constructors and constants -/

theorem findCall?_eq {spans : List Span} {words : List (List Char)}
    (spelled : List.Forall₂ (fun span t => slice? line span.1 span.2 = some t) spans words) :
    findCall? line spans = done (.ok spans[(words.takeWhile (!·.contains '(')).length]?) := by
  induction spelled with
  | nil => rfl
  | @cons span t spans words here _ ih =>
    rw [findCall?, token, slice, here, the_some, done_ok_bind, List.takeWhile_cons, ih]
    cases t.contains '(' <;> simp

theorem renameConstructor_eq (old new line : List Char) :
    renameConstructor old new line = done (Legacy.renameConstructor old new line) := by
  unfold renameConstructor Legacy.renameConstructor
  split
  · rfl
  · rw [tokenSpans_eq]
    cases cut : cutTokens line with
    | error fault => rfl
    | ok tokens =>
      obtain rfl := of_cutTokens cut
      rw [map_ok, done_ok_bind, ok_bind, findCall?_eq (forall₂_spans tokens), done_ok_bind]
      generalize ((filled tokens).takeWhile (!·.contains '(')).length = k
      rcases exists_split k tokens with ⟨front, t, post, rfl, some, rfl⟩ | beyond
      · have within : ¬(filled (front ++ t :: post)).length ≤ (filled front).length := by
          rw [filled_append, filled_cons_of_ne some, List.length_append, List.length_cons]
          omega
        rw [spans_getElem? some, if_neg within, changeToken_behind _ _ some]
        dsimp only
        rw [token, slice, slice?_spanOf, the_some, done_ok_bind]
        cases afterLead? old t with
        | none => rfl
        | some behind =>
          cases behind with
          | nil => rfl
          | cons c rest =>
            by_cases opens : c = '('
            · subst opens
              exact apply_one front t post _
            · simp [opens]
      · rw [List.getElem?_eq_none (by rwa [length_spans]), if_pos beyond]
        rfl

theorem fieldType_eq (declaration : List Char) : fieldType declaration = done (Legacy.fieldType declaration) := by
  unfold fieldType Legacy.fieldType
  rw [tokenSpans_eq]
  cases cut : cutTokens declaration with
  | error fault => rfl
  | ok tokens =>
    obtain rfl := of_cutTokens cut
    obtain ⟨found, run, word⟩ := exists_tokenAt? tokens (placeAfterModifiers (filled tokens))
    rw [map_ok, done_ok_bind, firstAfterModifiers_eq, done_ok_bind, run, done_ok_bind, ok_bind, ← word]
    cases found <;> rfl

theorem decodeField_eq (line : List Char) : decodeField line = done (Legacy.decodeField line) := by
  unfold decodeField Legacy.decodeField
  split
  · rfl
  · cases found : cutAt? constantMark line with
    | none =>
      rw [find?_eq_none found]
      rfl
    | some parts =>
      obtain ⟨declaration, rest⟩ := parts
      obtain ⟨place, front, mark⟩ := find?_of_cutAt? found (restAt?_zero line)
      rw [Nat.zero_add] at mark
      simp only [place, slice_of_restAt? front mark, sliceFrom_of_restAt? (restAt?_append mark), done_ok_bind]
      cases beforeTail? constantEnd rest with
      | none => rfl
      | some old =>
        dsimp only
        rw [fieldType_eq]
        refine done_bind fun type _ => ?_
        cases Literal.decodeConstant type old <;> rfl

theorem encodeField_eq (line : List Char) : encodeField line = done (Legacy.encodeField line) := by
  unfold encodeField Legacy.encodeField
  split
  · rfl
  · cases found : cutAt? " = ".toList line with
    | none =>
      rw [find?_eq_none found]
      rfl
    | some parts =>
      obtain ⟨declaration, modern⟩ := parts
      obtain ⟨place, front, mark⟩ := find?_of_cutAt? found (restAt?_zero line)
      rw [Nat.zero_add] at mark
      have behind : restAt? line (byteLength declaration + 3) = some modern := restAt?_append mark
      simp only [place, slice_of_restAt? front mark, done_ok_bind, fieldType_eq]
      refine done_bind fun type _ => ?_
      rw [sliceFrom_of_restAt? behind]
      rfl

/-! ### Laws of rules -/

/-- No rule is stuck where it decodes a line. -/
theorem decode_eq (rule : LegacyRule) (className : String) (line : List Char) :
    decode rule className line = done (rule.decode className line) := by
  cases rule with
  | nullSuper => rfl
  | vmArrays => rw [decode, changeTypes_eq arrayToSource_eq, map_done, LegacyRule.decode]
  | initConstructors => rw [decode, renameConstructor_eq, map_done, LegacyRule.decode]
  | encodedConstants => rw [decode, decodeField_eq, map_done, LegacyRule.decode]

/-- No rule is stuck where it encodes a line. -/
theorem encode_eq (rule : LegacyRule) (className : String) (line : List Char) :
    encode rule className line = done (rule.encode className line) := by
  cases rule with
  | nullSuper => rfl
  | vmArrays => exact changeTypes_eq (fun _ => rfl) line
  | initConstructors => exact renameConstructor_eq _ _ line
  | encodedConstants => exact encodeField_eq line

end ApiSurface.InPlace
