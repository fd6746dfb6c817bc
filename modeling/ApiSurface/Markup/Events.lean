import ApiSurface.Markup.Tag

/-!
What happens in a markup text, in order: elements open and close, until the text ends or is found to be
no markup. Text between tags, comments, sections of text, declarations and instructions are passed over.
An end tag has to match the innermost element that is open; elements may stay open at the end.
-/

namespace ApiSurface.Markup

open ApiSurface.Text

/-- Something that happens in a markup text. -/
inductive Event where
  /-- An element begins; `empty` if the tag is the whole element. -/
  | opens (name : List Char) (attributes : List Attribute) (empty : Bool)
  | closes (name : List Char)
  deriving DecidableEq, Repr

/-- All that happens in a text, and how it ends. -/
inductive Events where
  | ended
  | failed (fault : Fault)
  | next (event : Event) (more : Events)
  deriving Repr

/-- Which quote is open inside a tag, if any. Cuts at the bracket that ends the tag. -/
def cutTag : Option Char → List Char → Option (List Char × List Char)
  | _, [] => none
  | none, c :: cs =>
    if c = '>' then some ([], cs)
    else
      (cutTag (if c = '"' ∨ c = '\'' then some c else none) cs).map fun (inside, rest) =>
        (c :: inside, rest)
  | some q, c :: cs =>
    (cutTag (if c = q then none else some q) cs).map fun (inside, rest) => (c :: inside, rest)

/-- Cuts at the first `>` that has this text and so many characters at least before it, given what was
read so far in reverse. -/
def cutSection (tail : List Char) (least : Nat) :
    List Char → List Char → Option (List Char × List Char)
  | _, [] => none
  | read, c :: cs =>
    if c = '>' ∧ least ≤ read.length ∧ tail.isPrefixOf read then some (read.reverse, cs)
    else cutSection tail least (c :: read) cs

/-- Cuts at the `>` that ends a declaration with so many brackets open. -/
def cutDeclaration : Nat → List Char → Option (List Char × List Char)
  | _, [] => none
  | depth, c :: cs =>
    match c, depth with
    | '>', 0 => some ([], cs)
    | '>', depth + 1 => (cutDeclaration depth cs).map fun (inside, rest) => (c :: inside, rest)
    | '<', depth => (cutDeclaration (depth + 1) cs).map fun (inside, rest) => (c :: inside, rest)
    | _, depth => (cutDeclaration depth cs).map fun (inside, rest) => (c :: inside, rest)

/-- Passes over what begins with an exclamation mark. -/
def skipDeclaration (cs : List Char) : Except Fault (List Char) :=
  match cs with
  | '-' :: _ =>
    match cutSection ['-', '-'] 4 [] cs with
    | none => .error .unclosedComment
    | some (inside, rest) =>
      if ['-', '-'].isPrefixOf inside then .ok rest else .error .unclosedComment
  | '[' :: _ =>
    match cutSection [']', ']'] 0 [] cs with
    | none => .error .unclosedComment
    | some (inside, rest) =>
      if "[CDATA[".toList.isPrefixOf inside then .ok rest else .error .unclosedComment
  | c :: _ =>
    if c = 'D' ∨ c = 'd' then
      match cutDeclaration 0 cs with
      | none => .error .badDeclaration
      | some (inside, rest) =>
        if (inside.take 7).map Char.toUpper = "DOCTYPE".toList ∧ (inside.drop 7).any (!isSpace ·) then
          .ok rest
        else .error .badDeclaration
    else .error .badDeclaration
  | [] => .error .badDeclaration

/-- Passes over an instruction, question mark included. -/
def skipInstruction (cs : List Char) : Except Fault (List Char) :=
  match cutSection ['?'] 1 [] cs with
  | none => .error .unclosedInstruction
  | some (inside, rest) => if 1 < inside.length then .ok rest else .error .unclosedInstruction

/-- The element that a tag with this inside opens. -/
def opening (inside : List Char) : Except Fault (List Char × List Attribute × Bool) :=
  let (inside, empty) := match beforeTail? ['/'] inside with
    | some inside => (inside, true)
    | none => (inside, false)
  let (name, rest) := cutBefore isSpace inside
  (attributes rest).map fun as => (name, as, empty)

/-- The name in an end tag with this inside: white space at its end does not count, unless it is all. -/
def closingName (inside : List Char) : List Char :=
  if inside.all isSpace then inside else (inside.reverse.dropWhile isSpace).reverse

/-- All that happens in a text with at most `limit` tags, inside these open elements. -/
def eventsFrom : Nat → List (List Char) → List Char → Events
  | 0, _, _ => .ended
  | limit + 1, parents, cs =>
    match cutAt? ['<'] cs with
    | none => .ended
    | some (_, []) => .failed .unclosedTag
    | some (_, c :: cs) =>
      if c = '!' then
        match skipDeclaration cs with
        | .error fault => .failed fault
        | .ok rest => eventsFrom limit parents rest
      else if c = '?' then
        match skipInstruction (c :: cs) with
        | .error fault => .failed fault
        | .ok rest => eventsFrom limit parents rest
      else
        match cutTag none (c :: cs) with
        | none => .failed .unclosedTag
        | some (inside, rest) =>
          if c = '/' then
            let name := closingName (inside.drop 1)
            match parents with
            | innermost :: outer =>
              if name = innermost then .next (.closes name) (eventsFrom limit outer rest)
              else .failed .unmatchedEnd
            | [] => .failed .unmatchedEnd
          else
            match opening inside with
            | .error fault => .failed fault
            | .ok (name, attributes, empty) =>
              .next (.opens name attributes empty)
                (eventsFrom limit (if empty then parents else name :: parents) rest)

/-- All that happens in a text. -/
def events (cs : List Char) : Events := eventsFrom (cs.length + 1) [] cs

end ApiSurface.Markup
