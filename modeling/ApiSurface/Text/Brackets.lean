import ApiSurface.Text.Blank

/-!
Text with brackets and quoted literals. A place in such a text is at top level when no bracket that
counts is open there and no literal is in progress; lines and lists are cut at top level only, so that
type arguments, argument lists and string constants stay in one piece. Inside a literal a backslash
takes the character after it along. Main statement: cutting loses nothing, the piece and the rest are
the text (`scanTo_append`, `throughClose_append`, `join_segments`).
-/

namespace ApiSurface.Text

/-- Why a text cannot be cut at top level. -/
inductive BracketFault where
  /-- A literal is still in progress at the end. -/
  | unterminatedLiteral
  /-- A closing bracket that does not close the innermost open one. -/
  | unbalanced (closer : Char)
  /-- A bracket without partner at the end. -/
  | unclosed (bracket : Char)
  deriving DecidableEq, Repr

/-- The fault in words. -/
def BracketFault.message : BracketFault → String
  | .unterminatedLiteral => "unterminated quoted literal"
  | .unbalanced c => "unbalanced '" ++ c.toString ++ "'"
  | .unclosed c => "unclosed '" ++ c.toString ++ "'"

/-- The bracket that closes an opening one. -/
def closerOf (bracket : Char) : Char :=
  if bracket = '(' then ')' else if bracket = '[' then ']' else '>'

/-- The brackets that group tokens. -/
def brackets : List Char := ['(', '[', '<']

/-- Whether a place is inside a quoted literal, and if so inside which. -/
inductive LiteralState where
  | outside
  | inside (quote : Char)
  /-- Right after a backslash. -/
  | escaped (quote : Char)
  deriving DecidableEq, Repr

/-- What is open at a place: the brackets, innermost first, and the literal. -/
structure Nesting where
  stack : List Char
  literal : LiteralState
  deriving DecidableEq, Repr

namespace Nesting

/-- Nothing is open. -/
def top : Nesting := ⟨[], .outside⟩

/-- What is open after one more character, when only the brackets in `opens` count. -/
def step (opens : List Char) (n : Nesting) (c : Char) : Except BracketFault Nesting :=
  match n.literal with
  | .escaped q => .ok ⟨n.stack, .inside q⟩
  | .inside q =>
    if c = '\\' then .ok ⟨n.stack, .escaped q⟩
    else if c = q then .ok ⟨n.stack, .outside⟩
    else .ok n
  | .outside =>
    if c = '"' ∨ c = '\'' then .ok ⟨n.stack, .inside c⟩
    else if c ∈ opens then .ok ⟨c :: n.stack, .outside⟩
    else if c ∈ [')', ']', '>'] ∧ opens.any (closerOf · == c) then
      match n.stack with
      | bracket :: outer =>
        if closerOf bracket = c then .ok ⟨outer, .outside⟩ else .error (.unbalanced c)
      | [] => .error (.unbalanced c)
    else .ok n

/-- The fault of a text that ends with this open, if any. -/
def faultAtEnd? (n : Nesting) : Option BracketFault :=
  if n.literal ≠ .outside then some .unterminatedLiteral
  else n.stack.head?.map .unclosed

end Nesting

/-- Cuts before the first character of `stops` at top level, counting from the nesting given. -/
def scanFrom (opens stops : List Char) : Nesting → List Char → Except BracketFault (List Char × List Char)
  | n, [] =>
    match n.faultAtEnd? with
    | some fault => .error fault
    | none => .ok ([], [])
  | n, c :: cs =>
    if n = .top ∧ c ∈ stops then .ok ([], c :: cs)
    else
      match n.step opens c with
      | .error fault => .error fault
      | .ok next =>
        match scanFrom opens stops next cs with
        | .error fault => .error fault
        | .ok (piece, rest) => .ok (c :: piece, rest)

/-- Cuts before the first character of `stops` that is outside all brackets and literals. -/
def scanTo (stops cs : List Char) : Except BracketFault (List Char × List Char) :=
  scanFrom brackets stops .top cs

/-- Cuts after the bracket that closes the last one of `n`; `wanted` is named if there is none. -/
def closeFrom (wanted : Char) : Nesting → List Char → Except BracketFault (List Char × List Char)
  | n, [] =>
    if n.literal ≠ .outside then .error .unterminatedLiteral else .error (.unclosed wanted)
  | n, c :: cs =>
    match n.step brackets c with
    | .error fault => .error fault
    | .ok next =>
      if next.stack = [] then .ok ([c], cs)
      else
        match closeFrom wanted next cs with
        | .error fault => .error fault
        | .ok (piece, rest) => .ok (c :: piece, rest)

/-- Given what follows an opening bracket, cuts after the bracket that closes it. -/
def throughClose (bracket : Char) (cs : List Char) : Except BracketFault (List Char × List Char) :=
  closeFrom (closerOf bracket) ⟨[bracket], .outside⟩ cs

/-- The pieces between the separators at top level, from the nesting given. -/
def segmentsFrom (opens : List Char) (separator : Char) :
    Nesting → List Char → Except BracketFault (List (List Char))
  | n, [] =>
    match n.faultAtEnd? with
    | some fault => .error fault
    | none => .ok [[]]
  | n, c :: cs =>
    if n = .top ∧ c = separator then
      match segmentsFrom opens separator .top cs with
      | .error fault => .error fault
      | .ok more => .ok ([] :: more)
    else
      match n.step opens c with
      | .error fault => .error fault
      | .ok next =>
        match segmentsFrom opens separator next cs with
        | .error fault => .error fault
        | .ok [] => .ok [[c]]
        | .ok (first :: more) => .ok ((c :: first) :: more)

/-- The pieces between the separators at top level; there is always one more than separators. -/
def segments (opens : List Char) (separator : Char) (cs : List Char) :
    Except BracketFault (List (List Char)) :=
  segmentsFrom opens separator .top cs

/-- The items of a list with commas at top level: trimmed, and without the empty ones. -/
def items (opens : List Char) (cs : List Char) : Except BracketFault (List (List Char)) :=
  (segments opens ',' cs).map fun pieces => (pieces.map trim).filter (!·.isEmpty)

/-- Given what follows an opening quote, the inside of the literal and what follows its end. -/
def throughQuote? (quote : Char) : List Char → Option (List Char × List Char)
  | [] => none
  | '\\' :: c :: cs =>
    (throughQuote? quote cs).map fun (inside, rest) => ('\\' :: c :: inside, rest)
  | c :: cs =>
    if c = '\\' then none
    else if c = quote then some ([], cs)
    else (throughQuote? quote cs).map fun (inside, rest) => (c :: inside, rest)

/-! ### Laws -/

/-- The piece before the stop and the rest are the text. -/
theorem scanFrom_append {opens stops : List Char} {n : Nesting} {cs piece rest : List Char}
    (h : scanFrom opens stops n cs = .ok (piece, rest)) : piece ++ rest = cs := by
  induction cs generalizing n piece with
  | nil =>
    simp only [scanFrom] at h
    split at h
    · cases h
    · cases h
      rfl
  | cons c cs ih =>
    simp only [scanFrom] at h
    split at h
    · cases h
      rfl
    · split at h
      · cases h
      · split at h
        · cases h
        · rename_i found
          cases h
          simp [ih found]

/-- The piece before the stop and the rest are the text. -/
theorem scanTo_append {stops cs piece rest : List Char}
    (h : scanTo stops cs = .ok (piece, rest)) : piece ++ rest = cs :=
  scanFrom_append h

theorem closeFrom_append {wanted : Char} {n : Nesting} {cs piece rest : List Char}
    (h : closeFrom wanted n cs = .ok (piece, rest)) : piece ++ rest = cs := by
  induction cs generalizing n piece with
  | nil =>
    simp only [closeFrom] at h
    split at h <;> cases h
  | cons c cs ih =>
    simp only [closeFrom] at h
    split at h
    · cases h
    · split at h
      · cases h
        rfl
      · split at h
        · cases h
        · rename_i found
          cases h
          simp [ih found]

/-- The piece up to the closing bracket and the rest are the text. -/
theorem throughClose_append {bracket : Char} {cs piece rest : List Char}
    (h : throughClose bracket cs = .ok (piece, rest)) : piece ++ rest = cs :=
  closeFrom_append h

/-- The segments with the separator between any two are the text. -/
theorem join_segmentsFrom {opens : List Char} {separator : Char} {n : Nesting} {cs : List Char}
    {pieces : List (List Char)} (h : segmentsFrom opens separator n cs = .ok pieces) :
    pieces ≠ [] ∧ List.intercalate [separator] pieces = cs := by
  induction cs generalizing n pieces with
  | nil =>
    simp only [segmentsFrom] at h
    split at h
    · cases h
    · cases h
      simp [List.intercalate]
  | cons c cs ih =>
    simp only [segmentsFrom] at h
    split at h
    · rename_i stop
      split at h
      · cases h
      · rename_i more found
        cases h
        obtain ⟨filled, joined⟩ := ih found
        refine ⟨by simp, ?_⟩
        cases more with
        | nil => exact absurd rfl filled
        | cons first more =>
          simp [List.intercalate, List.intersperse] at joined ⊢
          exact ⟨stop.2.symm, joined⟩
    · split at h
      · cases h
      · split at h
        · cases h
        · rename_i found
          exact absurd rfl (ih found).1
        · rename_i first more found
          cases h
          obtain ⟨-, joined⟩ := ih found
          refine ⟨by simp, ?_⟩
          cases more <;> simp [List.intercalate, List.intersperse] at joined ⊢ <;> exact joined

/-- The segments with the separator between any two are the text. -/
theorem join_segments {opens : List Char} {separator : Char} {cs : List Char}
    {pieces : List (List Char)} (h : segments opens separator cs = .ok pieces) :
    List.intercalate [separator] pieces = cs :=
  (join_segmentsFrom h).2

/-- The inside of a literal, the quote and the rest are the text. -/
theorem throughQuote?_append {quote : Char} {cs inside rest : List Char}
    (h : throughQuote? quote cs = some (inside, rest)) : inside ++ quote :: rest = cs := by
  fun_induction throughQuote? quote cs generalizing inside with
  | case1 => cases h
  | case2 c cs ih =>
    simp only [Option.map_eq_some_iff, Prod.exists, Prod.mk.injEq] at h
    obtain ⟨a, b, found, rfl, rfl⟩ := h
    simp [ih found]
  | case3 => cases h
  | case4 =>
    cases h
    rfl
  | case5 c cs _ _ _ ih =>
    simp only [Option.map_eq_some_iff, Prod.exists, Prod.mk.injEq] at h
    obtain ⟨a, b, found, rfl, rfl⟩ := h
    simp [ih found]

end ApiSurface.Text
