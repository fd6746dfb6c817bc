import ApiSurface.Line.Member
import ApiSurface.Proofs.InPlace.Scan
import ApiSurface.Proofs.Line.Token

/-!
Class headers and member lines read in place. A line is scanned token by token, each one cut out between
two places of the scanner; the constant, the arguments of a call and the type parameters of a class are
cut where a mark was found. Main statements: the parser of class headers and that of member lines are
never stuck, and say what the readers say (`parseClassHeader_eq`, `parseMember_eq`).
-/

namespace ApiSurface.InPlace

open ApiSurface.Text

/-! ### Tokens -/

/-- Ends with a fault of this line. -/
def fail {α : Type} (fault : LineFault) (line : List Char) : Run Malformed α := done (Line.fail fault line)

/-- A fault of the bracket scanner as one of this line. -/
def liftBrackets {α : Type} (line : List Char) (r : Run BracketFault α) : Run Malformed α :=
  mapError (fun fault => ⟨0, .bracket fault, String.ofList line⟩) r

/-- The next token, if there is one, and where it ends. -/
def next (line : List Char) (i : Nat) : Run Malformed (Option (List Char) × Nat) := do
  let start := skipSpaces line i
  if byteLength line ≤ start then return (none, start)
  else do
    let stop ← liftBrackets line (scanTo [' '] line start)
    let t ← slice line start stop
    return (some t, stop)

/-- A token that has to be there, and where it ends. -/
def expect (what : String) (line : List Char) (i : Nat) : Run Malformed (List Char × Nat) := do
  match ← next line i with
  | (some t, stop) => return (t, stop)
  | (none, _) => fail (.missing what) line

/-- The keywords of modifiers that come next, and where they end. -/
def modifiersFrom (line : List Char) (set : Modifiers) (i : Nat) : Run Malformed (Modifiers × Nat) := do
  match ← next line i with
  | (none, _) => return (set, i)
  | (some t, stop) =>
    match Modifier.ofKeyword? (String.ofList t) with
    | none => return (set, i)
    | some m => do
      let ⟨_⟩ ← check (Ahead line i stop)
      modifiersFrom line (set.insert m) stop
termination_by byteLength line - i
decreasing_by
  rename_i ahead
  unfold Ahead at ahead
  omega

/-- The rest of the line, without blanks at its end. -/
def restOfLine (line : List Char) (i : Nat) : Run Malformed (List Char) := do
  let rest ← sliceFrom line (skipSpaces line i)
  return trimEnd rest

/-- Nothing may be left. -/
def finish (line : List Char) (i : Nat) : Run Malformed Unit := do
  match ← next line i with
  | (none, _) => return ()
  | (some t, _) => fail (.unexpectedToken (String.ofList t)) line

/-! ### Class headers -/

/-- The first line of a class block. -/
def parseClassHeader (line : List Char) : Run Malformed ClassHeader := do
  let (_, i) ← expect classTag line 0
  let (set, i) ← modifiersFrom line .none i
  let (t, i) ← expect "class name" line i
  let (more, _) ← next line i
  if more.isSome then fail .afterClassName line
  else
    match find? ['<'] t with
    | some bracket => do
      let name ← slice t 0 bracket
      let parameters ← sliceFrom t bracket
      return ⟨set, String.ofList name, some (String.ofList parameters)⟩
    | none => return ⟨set, String.ofList t, none⟩

/-! ### Member lines -/

/-- The name and the arguments of a call. -/
def splitCall (line t : List Char) : Run Malformed (List Char × List Char) :=
  match find? ['('] t with
  | none => fail (.missing "argument list") line
  | some bracket =>
    if (beforeTail? [')'] t).isNone then fail .argumentsNotClosed line
    else do
      let name ← slice t 0 bracket
      let arguments ← slice t (bracket + 1) (byteLength t - 1)
      if name.isEmpty then fail (.missing "member name") line else return (name, arguments)

/-- Type parameters, if the token `t` is a list of them, and then the token after it. -/
def typeParameters? (what : String) (isList : List Char → Bool) (line t : List Char) (i : Nat) :
    Run Malformed ((Option String × List Char) × Nat) :=
  if isList t then do
    let (following, i) ← expect what line i
    return ((some (String.ofList t), following), i)
  else return ((none, t), i)

/-- Exceptions, if the word for them comes next. -/
def throws (line : List Char) (i : Nat) : Run Malformed (List String × Nat) := do
  let (word, stop) ← next line i
  if word = some Line.throwsWord then do
    let (list, stop) ← expect "throws list" line stop
    let types ← liftBrackets line (splitTopLevel brackets list)
    return (types.map String.ofList, stop)
  else return ([], i)

/-- The declaration of a field line and its constant. -/
def cutConstant (line : List Char) : Run Malformed (List Char × Option String) :=
  match find? " = ".toList line with
  | some i => do
    let declaration ← slice line 0 i
    let constant ← sliceFrom line (i + 3)
    return (declaration, some (String.ofList constant))
  | none => return (line, none)

/-- The name of a field, its type and its constant. -/
def fieldRest (line : List Char) : Run Malformed (String × Detail) := do
  let (declaration, constant) ← cutConstant line
  let (_, i) ← expect MemberKind.field.tag declaration 0
  let (_, i) ← modifiersFrom declaration .none i
  let (type, i) ← expect "field type" declaration i
  let (name, i) ← expect "field name" declaration i
  let (more, _) ← next declaration i
  if more.isSome then fail .afterFieldName line
  else return (String.ofList name, .field (String.ofList type) constant)

/-- The default of a method, if the word for it comes next; nothing else may be left. -/
def default? (line : List Char) (i : Nat) : Run Malformed (Option String) := do
  match ← next line i with
  | (none, _) => return none
  | (some t, stop) =>
    if t = Line.defaultWord then do
      let value ← restOfLine line stop
      if value.isEmpty then fail (.missing "default value") line else return some (String.ofList value)
    else fail (.unexpectedToken (String.ofList t)) line

/-- The rest of a method line. -/
def methodRest (line : List Char) (i : Nat) : Run Malformed (String × Detail) := do
  let (t, i) ← expect "return type" line i
  let ((parameters, result), i) ← typeParameters? "return type" (['<'].isPrefixOf ·) line t i
  let (call, i) ← expect "method name" line i
  let (name, arguments) ← splitCall line call
  let (exceptions, i) ← throws line i
  let default ← default? line i
  return (String.ofList name,
    .method parameters (String.ofList result) (String.ofList arguments) exceptions default)

/-- The rest of a constructor line. -/
def constructorRest (line : List Char) (i : Nat) : Run Malformed (String × Detail) := do
  let (t, i) ← expect "constructor name" line i
  let ((parameters, call), i) ← typeParameters? "constructor name" Line.listsParameters line t i
  let (name, arguments) ← splitCall line call
  let (exceptions, i) ← throws line i
  finish line i
  return (String.ofList name, .constructor parameters (String.ofList arguments) exceptions)

/-- The rest of a line that has one name only. -/
def nameRest (what : String) (detail : Detail) (line : List Char) (i : Nat) : Run Malformed (String × Detail) := do
  let (name, i) ← expect what line i
  finish line i
  return (String.ofList name, detail)

/-- The member of a line of this kind in a class of this name. -/
def parseMember (kind : MemberKind) (className : String) (line : List Char) : Run Malformed Member := do
  let (_, i) ← expect kind.tag line 0
  let (set, i) ← modifiersFrom line .none i
  let (name, detail) ← match kind with
    | .superclass => nameRest "superclass" .superclass line i
    | .superinterface => nameRest "interface" (.superinterface true) line i
    | .nested =>
      (fun (simple, detail) => (className ++ "$" ++ simple, detail)) <$> nameRest "nested class name" .nested line i
    | .field => fieldRest line
    | .method => methodRest line i
    | .constructor => constructorRest line i
  return ⟨className, name, set, [], detail⟩

/-! ### Laws of tokens -/

variable {line cs t rest : List Char} {what : String} {i : Nat}

theorem liftBrackets_done {α : Type} (line : List Char) (x : Except BracketFault α) :
    liftBrackets line (done x) = done (Line.liftBrackets line x) := by
  cases x <;> rfl

theorem liftBrackets_items (line s : List Char) :
    liftBrackets line (splitTopLevel brackets s) = done (Line.liftBrackets line (items brackets s)) := by
  rw [splitTopLevel_eq (List.Subset.refl _), liftBrackets_done]

/-- Tokens are taken in place as they are from what is left. -/
theorem follows_next (h : restAt? line i = some cs) : Follows line (· <:+ cs) (next line i) (Line.token? line cs) := by
  have start := restAt?_skipSpaces h
  have length := add_byteLength_of_restAt? start
  unfold next Line.token? Line.nextToken
  cases spaces : dropSpaces cs with
  | nil =>
    rw [spaces] at start length
    rw [if_pos (by simp at length; omega)]
    exact Follows.value none start (List.nil_suffix)
  | cons c ds =>
    rw [spaces] at start length
    have positive := c.utf8Size_pos
    rw [if_neg (by simp at length; omega)]
    have space : ∀ c ∈ [' '], IsAscii c := by decide
    have spec := scan_spec (ε := Malformed) (List.Subset.refl brackets) space start
    rw [scanTo]
    simp only [Text.scanTo]
    cases list : scanFrom brackets [' '] .top (c :: ds) with
    | error fault =>
      rw [list] at spec
      rw [spec, liftBrackets_done]
      exact Follows.fault _
    | ok found =>
      obtain ⟨piece, rest⟩ := found
      rw [list] at spec
      obtain ⟨j, run, place, between⟩ := spec
      rw [run, liftBrackets_done]
      simp only [Line.liftBrackets, done_ok_bind, between, pure_eq_done]
      refine Follows.value _ place (List.IsSuffix.trans ⟨piece, ?_⟩ (dropSpaces_suffix cs))
      rw [spaces]
      exact scanFrom_append list

theorem follows_expect (h : restAt? line i = some cs) :
    Follows line (· <:+ cs) (expect what line i) (Line.token line what cs) := by
  have token := follows_next h
  unfold expect Line.token
  cases list : Line.token? line cs with
  | error fault =>
    rw [token.of_error list]
    exact Follows.fault _
  | ok found =>
    obtain ⟨t?, rest⟩ := found
    obtain ⟨j, run, place, less⟩ := token.of_ok list
    rw [run, done_ok_bind]
    cases t? with
    | none => exact Follows.fault _
    | some t => exact Follows.value t place less

/-- Behind a token there is less left. -/
theorem ahead_of_token {j : Nat} (h : restAt? line i = some cs) (list : Line.token? line cs = .ok (some t, rest))
    (place : restAt? line j = some rest) : Ahead line i j := by
  obtain ⟨taken, token, -⟩ := Line.token?_eq_some_iff.1 list
  have behind : Behind (dropSpaces cs) rest := taken ▸ Behind.of_append token.filled rest
  exact (behind.mono (dropSpaces_suffix cs)).ahead h place

/-- The keywords are the ones of the reader, if it may take as many as there are characters left. -/
theorem follows_modifiersFrom {limit : Nat} (set : Modifiers) (h : restAt? line i = some cs)
    (enough : cs.length ≤ limit) :
    Follows line (· <:+ cs) (modifiersFrom line set i) (Line.modifiersFrom line limit set cs) := by
  induction limit generalizing set cs i with
  | zero =>
    obtain rfl : cs = [] := List.eq_nil_of_length_eq_zero (Nat.le_zero.1 enough)
    obtain ⟨j, run, -, -⟩ := (follows_next h).of_ok (Line.token?_nil line)
    rw [modifiersFrom, run]
    exact Follows.value set h (List.suffix_refl _)
  | succ limit ih =>
    have token := follows_next h
    rw [modifiersFrom, Line.modifiersFrom]
    cases list : Line.token? line cs with
    | error fault =>
      rw [token.of_error list]
      exact Follows.fault _
    | ok found =>
      obtain ⟨t?, rest⟩ := found
      obtain ⟨j, run, place, less⟩ := token.of_ok list
      rw [run, done_ok_bind]
      cases t? with
      | none => exact Follows.value set h (List.suffix_refl _)
      | some t =>
        simp only
        cases Modifier.ofKeyword? (String.ofList t) with
        | none => exact Follows.value set h (List.suffix_refl _)
        | some m =>
          obtain ⟨taken, token, -⟩ := Line.token?_eq_some_iff.1 list
          have shorter : rest.length < cs.length := by
            have all := length_dropSpaces_le cs
            have some := List.length_pos_of_ne_nil token.filled
            rw [taken, List.length_append] at all
            omega
          simp only [check_of (ahead_of_token h list place), done_ok_bind]
          exact (ih (set.insert m) place (by omega)).mono fun _ less' => less'.trans less

theorem follows_modifiers (h : restAt? line i = some cs) :
    Follows line (· <:+ cs) (modifiersFrom line .none i) (Line.modifiers line cs) :=
  follows_modifiersFrom .none h (Nat.le_refl _)

theorem restOfLine_eq (h : restAt? line i = some cs) : restOfLine line i = done (.ok (trimEnd (dropSpaces cs))) := by
  rw [restOfLine, sliceFrom_of_restAt? (restAt?_skipSpaces h)]
  rfl

theorem finish_eq (h : restAt? line i = some cs) : finish line i = done (Line.finish line cs) := by
  refine (follows_next h).bind_done fun t? j rest place less => ?_
  cases t? <;> rfl

/-! ### Laws of class headers -/

theorem parseClassHeader_eq (line : List Char) : parseClassHeader line = done (Line.parseClassHeader line) := by
  refine (follows_expect (restAt?_zero line)).bind_done fun _ i cs place _ => ?_
  refine (follows_modifiers place).bind_done fun set i cs place _ => ?_
  refine (follows_expect place).bind_done fun t i cs place _ => ?_
  refine (follows_next place).bind_done fun more i cs place _ => ?_
  dsimp only
  split
  · rfl
  · rw [cutBefore_eq]
    cases found : cutAt? ['<'] t with
    | none =>
      rw [find?_eq_none found]
      rfl
    | some parts =>
      obtain ⟨name, parameters⟩ := parts
      obtain ⟨place, front, behind⟩ := find?_of_cutAt? found (restAt?_zero t)
      rw [Nat.zero_add] at behind
      simp only [place, slice_of_restAt? front behind, sliceFrom_of_restAt? behind, done_ok_bind]
      rfl

/-! ### Laws of member lines -/

theorem beforeTail?_isNone_append {front cs : List Char} (filled : cs ≠ []) (c : Char) :
    (beforeTail? [c] (front ++ cs)).isNone = (beforeTail? [c] cs).isNone := by
  cases cs using List.reverseRecOn with
  | nil => exact absurd rfl filled
  | append_singleton cs d _ =>
    have ends (t : List Char) : (beforeTail? [c] (t ++ [d])).isNone = (d != c) := by
      cases found : beforeTail? [c] (t ++ [d]) with
      | none =>
        have differ : d ≠ c := by
          rintro rfl
          simp [beforeTail?_append] at found
        simp [differ]
      | some before =>
        obtain ⟨-, same⟩ := List.append_inj' (beforeTail?_eq_some_iff.1 found) rfl
        simp [(List.cons.inj same).1]
    rw [← List.append_assoc, ends, ends]

theorem splitCall_eq (line t : List Char) : splitCall line t = done (Line.splitCall line t) := by
  unfold splitCall Line.splitCall
  cases found : cutAt? ['('] t with
  | none =>
    rw [find?_eq_none found]
    rfl
  | some parts =>
    obtain ⟨name, rest⟩ := parts
    obtain ⟨place, front, behind⟩ := find?_of_cutAt? found (restAt?_zero t)
    obtain ⟨whole, -⟩ := of_cutAt?_singleton found
    rw [Nat.zero_add] at behind
    have start : restAt? t (byteLength name + 1) = some rest := restAt?_cons_ascii (by decide) behind
    have ends : (beforeTail? [')'] t).isNone = (beforeTail? [')'] rest).isNone := by
      cases rest with
      | nil =>
        rw [whole, beforeTail?_isNone_append (by simp)]
        decide
      | cons c rest =>
        have whole : t = (name ++ ['(']) ++ c :: rest := by simpa using whole
        rw [whole, beforeTail?_isNone_append (by simp)]
    simp only [place, ends]
    cases closed : beforeTail? [')'] rest with
    | none => rfl
    | some arguments =>
      obtain rfl := beforeTail?_eq_some_iff.1 closed
      have size := add_byteLength_of_restAt? start
      have last : ')'.utf8Size = 1 := utf8Size_of_ascii (by decide)
      have stop : byteLength t - 1 = byteLength name + 1 + byteLength arguments := by
        simp [last] at size
        omega
      rw [stop]
      simp only [Option.isNone_some, Bool.false_eq_true, if_false, slice_of_restAt? front behind, done_ok_bind,
        slice_of_restAt? start (restAt?_append start)]
      split <;> rfl

/-- Type parameters are taken, or not, and then the reading goes on. -/
theorem typeParameters?_bind {β : Type} {isList : List Char → Bool} (h : restAt? line i = some cs)
    {k : (Option String × List Char) × Nat → Run Malformed β}
    {f : Option String × List Char × List Char → Except Malformed β}
    (next : ∀ parameters t i rest, restAt? line i = some rest → k ((parameters, t), i) = done (f (parameters, t, rest))) :
    (typeParameters? what isList line t i >>= k) = done (Line.typeParameters? line what isList t cs >>= f) := by
  unfold typeParameters? Line.typeParameters?
  split
  · rename_i isList
    have token : Follows line (· <:+ cs) (expect what line i) (Line.token line what cs) := follows_expect h
    cases list : Line.token line what cs with
    | error fault =>
      rw [token.of_error list]
      rfl
    | ok found =>
      obtain ⟨following, rest⟩ := found
      obtain ⟨j, run, place, -⟩ := token.of_ok list
      rw [run]
      exact next _ following j rest place
  · exact next none t i cs h

theorem follows_throws (h : restAt? line i = some cs) : Follows line (· <:+ cs) (throws line i) (Line.throws line cs) := by
  refine (follows_next h).bind fun word j rest place less => ?_
  dsimp only
  split
  · refine (follows_expect place).bind fun list j rest' place' less' => ?_
    dsimp only
    rw [liftBrackets_items]
    cases Line.liftBrackets line (items brackets list) with
    | error fault => exact Follows.fault _
    | ok types => exact Follows.value _ place' (less'.trans less)
  · exact Follows.value [] h (List.suffix_refl cs)

theorem cutConstant_eq (line : List Char) :
    cutConstant line = done (.ok (match cutAt? " = ".toList line with
      | some (before, after) => (before, some (String.ofList after))
      | none => (line, none))) := by
  unfold cutConstant
  cases found : cutAt? " = ".toList line with
  | none =>
    rw [find?_eq_none found]
    rfl
  | some parts =>
    obtain ⟨before, after⟩ := parts
    obtain ⟨place, front, mark⟩ := find?_of_cutAt? found (restAt?_zero line)
    rw [Nat.zero_add] at mark
    have behind : restAt? line (byteLength before + 3) = some after := restAt?_append mark
    simp only [place, slice_of_restAt? front mark, sliceFrom_of_restAt? behind, done_ok_bind, pure_eq_done]

theorem fieldRest_eq (line : List Char) : fieldRest line = done (Line.fieldRest line) := by
  rw [fieldRest, cutConstant_eq, done_ok_bind, Line.fieldRest]
  cases cutAt? " = ".toList line
  all_goals
    refine (follows_expect (restAt?_zero _)).bind_done fun _ i cs place _ => ?_
    refine (follows_modifiers place).bind_done fun _ i cs place _ => ?_
    refine (follows_expect place).bind_done fun type i cs place _ => ?_
    refine (follows_expect place).bind_done fun name i cs place _ => ?_
    refine (follows_next place).bind_done fun more i cs place _ => ?_
    dsimp only
    split <;> rfl

theorem default?_eq (h : restAt? line i = some cs) : default? line i = done (Line.default? line cs) := by
  refine (follows_next h).bind_done fun t? j rest place less => ?_
  cases t? with
  | none => rfl
  | some t =>
    dsimp only
    split
    · rw [restOfLine_eq place, done_ok_bind]
      split <;> rfl
    · rfl

theorem methodRest_eq (h : restAt? line i = some cs) : methodRest line i = done (Line.methodRest line cs) := by
  refine (follows_expect h).bind_done fun t i cs place _ => ?_
  refine typeParameters?_bind place fun parameters result i cs place => ?_
  refine (follows_expect place).bind_done fun call i cs place _ => ?_
  dsimp only
  rw [splitCall_eq]
  refine done_bind fun parts _ => ?_
  refine (follows_throws place).bind_done fun exceptions i cs place _ => ?_
  dsimp only
  rw [default?_eq place]
  exact done_bind fun _ _ => rfl

theorem constructorRest_eq (h : restAt? line i = some cs) :
    constructorRest line i = done (Line.constructorRest line cs) := by
  refine (follows_expect h).bind_done fun t i cs place _ => ?_
  refine typeParameters?_bind place fun parameters call i cs place => ?_
  dsimp only
  rw [splitCall_eq]
  refine done_bind fun parts _ => ?_
  refine (follows_throws place).bind_done fun exceptions i cs place _ => ?_
  dsimp only
  rw [finish_eq place]
  exact done_bind fun _ _ => rfl

theorem nameRest_eq (detail : Detail) (h : restAt? line i = some cs) :
    nameRest what detail line i = done (Line.nameRest line what detail cs) := by
  refine (follows_expect h).bind_done fun name i cs place _ => ?_
  dsimp only
  rw [finish_eq place]
  exact done_bind fun _ _ => rfl

/-- The parser of member lines is never stuck, and says what the reader says. -/
theorem parseMember_eq (kind : MemberKind) (className : String) (line : List Char) :
    parseMember kind className line = done (Line.parseMember kind className line) := by
  refine (follows_expect (restAt?_zero line)).bind_done fun _ i cs place _ => ?_
  refine (follows_modifiers place).bind_done fun set i cs place _ => ?_
  cases kind <;> dsimp only
  case superclass =>
    rw [nameRest_eq _ place]
    exact done_bind fun _ _ => rfl
  case superinterface =>
    rw [nameRest_eq _ place]
    exact done_bind fun _ _ => rfl
  case nested =>
    rw [nameRest_eq _ place, map_done]
    exact done_bind fun _ _ => rfl
  case field =>
    rw [fieldRest_eq]
    exact done_bind fun _ _ => rfl
  case method =>
    rw [methodRest_eq place]
    exact done_bind fun _ _ => rfl
  case constructor =>
    rw [constructorRest_eq place]
    exact done_bind fun _ _ => rfl

end ApiSurface.InPlace
