import ApiSurface.Line.Fault
import ApiSurface.Modifiers

/-!
A line as tokens: the pieces between spaces at top level. A line is read token by token, so a fault in a
later token only counts once the reader gets there. Main statement: a token and the rest are the text
behind the spaces (`nextToken_append`).
-/

namespace ApiSurface.Line

open ApiSurface.Text

/-- Takes the next token, if there is one. -/
def nextToken (cs : List Char) : Except BracketFault (Option (List Char) × List Char) :=
  match dropSpaces cs with
  | [] => .ok (none, [])
  | c :: cs =>
    match scanTo [' '] (c :: cs) with
    | .error fault => .error fault
    | .ok (token, rest) => .ok (some token, rest)

/-- Takes the next token of this line, if there is one. -/
def token? (line cs : List Char) : Except Malformed (Option (List Char) × List Char) :=
  liftBrackets line (nextToken cs)

/-- Takes a token that has to be there. -/
def token (line : List Char) (what : String) (cs : List Char) :
    Except Malformed (List Char × List Char) :=
  match token? line cs with
  | .error fault => .error fault
  | .ok (some t, rest) => .ok (t, rest)
  | .ok (none, _) => fail (.missing what) line

/-- Takes at most `limit` keywords of modifiers, and adds them to a set. -/
def modifiersFrom (line : List Char) :
    Nat → Modifiers → List Char → Except Malformed (Modifiers × List Char)
  | 0, set, cs => .ok (set, cs)
  | limit + 1, set, cs =>
    match token? line cs with
    | .error fault => .error fault
    | .ok (none, _) => .ok (set, cs)
    | .ok (some t, rest) =>
      match Modifier.ofKeyword? (String.ofList t) with
      | some m => modifiersFrom line limit (set.insert m) rest
      | none => .ok (set, cs)

/-- Takes all keywords of modifiers that come next. -/
def modifiers (line cs : List Char) : Except Malformed (Modifiers × List Char) :=
  modifiersFrom line cs.length .none cs

/-- The tokens that there are, with a space between any two. -/
def joinTokens (tokens : List (List Char)) : List Char := join [' '] (tokens.filter (!·.isEmpty))

/-- The keywords of a set of modifiers as tokens. -/
def keywordTokens (set : Modifiers) : List (List Char) := set.keywords.map String.toList

/-- A token and the rest are the text behind the spaces. -/
theorem nextToken_append {cs token rest : List Char} (h : nextToken cs = .ok (some token, rest)) :
    token ++ rest = dropSpaces cs := by
  simp only [nextToken] at h
  split at h
  · cases h
  · rename_i found
    split at h
    · cases h
    · rename_i scanned
      cases h
      rw [found]
      exact scanTo_append scanned

end ApiSurface.Line
