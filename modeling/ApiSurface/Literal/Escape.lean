import ApiSurface.Text.Numeral
import ApiSurface.Text.Units
import ApiSurface.Text.Basic

/-!
Java escapes. Writing leaves nothing but printable ASCII; reading knows the short escapes, octal escapes
up to 255 and code units in hexadecimal, and puts pairs of surrogates together. Main statement: an
escaped text is read back (`unescape_escape`).
-/

namespace ApiSurface.Literal

open ApiSurface.Text

/-! ### Writing -/

/-- A code unit by number. -/
def unitEscape (u : Nat) : List Char := '\\' :: 'u' :: fourHex u

/-- A character by the numbers of its code units. -/
def numericEscape (c : Char) : List Char := (charUnits c).flatMap unitEscape

/-- The characters that stand for themselves unless they are quote or backslash. -/
def isPlain (c : Char) : Bool := 0x20 ≤ c.toNat && c.toNat ≤ 0x7E

/-- How a character is written between two of these quotes. -/
def escapeChar (quote c : Char) : List Char :=
  if c = '\\' then ['\\', '\\']
  else if c = '\n' then ['\\', 'n']
  else if c = '\t' then ['\\', 't']
  else if c = '\r' then ['\\', 'r']
  else if c = '\x08' then ['\\', 'b']
  else if c = '\x0c' then ['\\', 'f']
  else if c = quote then ['\\', c]
  else if isPlain c then [c]
  else numericEscape c

/-- How a text is written between two of these quotes. -/
def escape (quote : Char) (cs : List Char) : List Char := cs.flatMap (escapeChar quote)

/-! ### Reading -/

/-- Why a text with escapes stands for nothing. -/
inductive EscapeFault where
  | danglingBackslash
  /-- Not four bytes of hexadecimal digits are left. -/
  | shortUnit (digits : List Char)
  | badUnit (digits : List Char)
  | unknown (c : Char)
  | unpairedSurrogate
  deriving DecidableEq, Repr

/-- The fault in words. -/
def EscapeFault.message : EscapeFault → String
  | .danglingBackslash => "dangling backslash"
  | .shortUnit digits => "short unicode escape \\u" ++ String.ofList digits
  | .badUnit digits => "bad unicode escape \\u" ++ String.ofList digits
  | .unknown c => "unknown escape \\" ++ c.toString
  | .unpairedSurrogate => "unpaired surrogate in escape"

/-- The code unit of a one-letter escape. -/
def shortEscape? (c : Char) : Option Nat :=
  if c = 'n' then some 10
  else if c = 't' then some 9
  else if c = 'r' then some 13
  else if c = 'b' then some 8
  else if c = 'f' then some 12
  else if c = 's' then some 32
  else if c = '\\' ∨ c = '"' ∨ c = '\'' then some c.toNat
  else none

/-- The value of an octal digit. -/
def octalValue? (c : Char) : Option Nat :=
  if 0x30 ≤ c.toNat ∧ c.toNat ≤ 0x37 then some (c.toNat - 0x30) else none

/-- Reads up to `more` further octal digits while the value stays within a byte. -/
def readOctal : Nat → Nat → List Char → Nat × List Char
  | more + 1, value, c :: cs =>
    match octalValue? c with
    | some d => if value * 8 + d ≤ 255 then readOctal more (value * 8 + d) cs else (value, c :: cs)
    | none => (value, c :: cs)
  | _, value, cs => (value, cs)

/-- Reads the digits of a code unit: four characters of one byte each. -/
def readUnit (cs : List Char) : Except EscapeFault (Nat × List Char) :=
  let digits := cs.take 4
  if byteLength digits ≠ 4 then .error (.shortUnit digits)
  else
    match readNatural? 16 digits with
    | some u => .ok (u, cs.drop 4)
    | none => .error (.badUnit digits)

/-- Reads what follows a backslash: the code unit, and the text after the escape. -/
def readEscape : List Char → Except EscapeFault (Nat × List Char)
  | [] => .error .danglingBackslash
  | c :: cs =>
    match shortEscape? c with
    | some u => .ok (u, cs)
    | none =>
      if c = 'u' then readUnit (cs.dropWhile (· == 'u'))
      else
        match octalValue? c with
        | some d => .ok (readOctal 2 d cs)
        | none => .error (.unknown c)

theorem readOctal_length (more value : Nat) (cs : List Char) :
    (readOctal more value cs).2.length ≤ cs.length := by
  fun_induction readOctal more value cs with
  | case1 _ _ _ _ _ _ _ ih => simp; omega
  | case2 => simp
  | case3 => simp
  | case4 => simp

/-- An escape leaves less text than it was found in. -/
theorem readEscape_length {cs rest : List Char} {u : Nat} (h : readEscape cs = .ok (u, rest)) :
    rest.length < cs.length := by
  cases cs with
  | nil => cases h
  | cons c cs =>
    simp only [readEscape] at h
    split at h
    · cases h
      simp
    · split at h
      · simp only [readUnit] at h
        split at h
        · cases h
        · split at h
          · cases h
            have := (List.dropWhile_sublist (l := cs) (· == 'u')).length_le
            simp only [List.length_drop, List.length_cons]
            omega
          · cases h
      · split at h
        · rename_i d _
          have shorter : (readOctal 2 d cs).2.length ≤ cs.length := readOctal_length 2 d cs
          injection h with h
          rw [h] at shorter
          simp only [List.length_cons] at shorter ⊢
          omega
        · cases h

/-- The code units that a text with escapes stands for. -/
def escapedUnits (cs : List Char) : Except EscapeFault (List Nat) :=
  match cs with
  | [] => .ok []
  | c :: cs =>
    if c = '\\' then
      match _h : readEscape cs with
      | .error fault => .error fault
      | .ok (u, rest) => (escapedUnits rest).map (u :: ·)
    else (escapedUnits cs).map (charUnits c ++ ·)
termination_by cs.length
decreasing_by
  · have := readEscape_length _h
    simp
    omega
  · simp

/-- The text that a text with escapes stands for. -/
def unescape (cs : List Char) : Except EscapeFault (List Char) :=
  match escapedUnits cs with
  | .error fault => .error fault
  | .ok us =>
    match ofUnits? us with
    | some text => .ok text
    | none => .error .unpairedSurrogate

/-! ### Laws -/

theorem charUnits_lt (c : Char) : ∀ u ∈ charUnits c, u < 65536 := by
  have range := toNat_range c
  intro u mem
  unfold charUnits at mem
  split at mem
  · simp at mem
    omega
  · simp at mem
    omega

/-- The units that an escaped code unit in front of a text adds. -/
theorem escapedUnits_unitEscape {u : Nat} (h : u < 65536) (cs : List Char) :
    escapedUnits (unitEscape u ++ cs) = (escapedUnits cs).map (u :: ·) := by
  have small (k : Nat) : digit (k % 16) ≠ 'u' ∧ (digit (k % 16)).utf8Size = 1 ∧
      digit (k % 16) ≠ '+' := by
    have all : ∀ e ∈ List.range 16, digit e ≠ 'u' ∧ (digit e).utf8Size = 1 ∧ digit e ≠ '+' := by
      decide
    exact all _ (List.mem_range.mpr (Nat.mod_lt _ (by decide)))
  have reading : readEscape ('u' :: (fourHex u ++ cs)) = .ok (u, cs) := by
    have back := readDigits?_fourHex h
    have notPlus := (small (u / 4096)).2.2
    have drop : (fourHex u ++ cs).dropWhile (· == 'u') = fourHex u ++ cs := by
      simp [fourHex, (small (u / 4096)).1]
    have natural : readNatural? 16 (fourHex u) = some u := by
      rw [← back]
      simp only [fourHex] at notPlus ⊢
      unfold readNatural?
      split
      · simp_all
      · simp_all
      · simp_all
      · rfl
    have sizes : byteLength (fourHex u) = 4 := by
      simp [fourHex, (small (u / 4096)).2.1, (small (u / 256)).2.1, (small (u / 16)).2.1,
        (small u).2.1]
    simp only [readEscape, show shortEscape? 'u' = none by decide, if_true, drop, readUnit]
    have four : (fourHex u ++ cs).take 4 = fourHex u := by simp [fourHex]
    have rest : (fourHex u ++ cs).drop 4 = cs := by simp [fourHex]
    simp [four, rest, sizes, natural]
  simp only [unitEscape, List.cons_append]
  rw [escapedUnits]
  simp only [if_true]
  split
  · rename_i bad
    rw [reading] at bad
    cases bad
  · rename_i good
    rw [reading] at good
    cases good
    rfl

/-- The units that a short escape in front of a text adds. -/
theorem escapedUnits_short {c : Char} {u : Nat} (h : shortEscape? c = some u) (cs : List Char) :
    escapedUnits ('\\' :: c :: cs) = (escapedUnits cs).map (u :: ·) := by
  have reading : readEscape (c :: cs) = .ok (u, cs) := by simp [readEscape, h]
  rw [escapedUnits]
  simp only [if_true]
  split
  · rename_i bad
    rw [reading] at bad
    cases bad
  · rename_i good
    rw [reading] at good
    cases good
    rfl

theorem escapedUnits_numericEscape (us : List Nat) (small : ∀ u ∈ us, u < 65536) (cs : List Char) :
    escapedUnits (us.flatMap unitEscape ++ cs) = (escapedUnits cs).map (us ++ ·) := by
  induction us with
  | nil =>
    simp only [List.flatMap_nil, List.nil_append]
    cases escapedUnits cs <;> rfl
  | cons u us ih =>
    rw [List.flatMap_cons, List.append_assoc, escapedUnits_unitEscape (small u (by simp)),
      ih fun v mem => small v (by simp [mem])]
    cases escapedUnits cs <;> rfl

/-- An escaped character in front of a text adds the character's units. -/
theorem escapedUnits_escapeChar {quote : Char} (q : quote = '"' ∨ quote = '\'') (c : Char)
    (cs : List Char) :
    escapedUnits (escapeChar quote c ++ cs) = (escapedUnits cs).map (charUnits c ++ ·) := by
  unfold escapeChar
  split
  · subst c; exact escapedUnits_short (by decide) cs
  split
  · subst c; exact escapedUnits_short (by decide) cs
  split
  · subst c; exact escapedUnits_short (by decide) cs
  split
  · subst c; exact escapedUnits_short (by decide) cs
  split
  · subst c; exact escapedUnits_short (by decide) cs
  split
  · subst c; exact escapedUnits_short (by decide) cs
  split
  · subst c
    rcases q with rfl | rfl <;> exact escapedUnits_short (by decide) cs
  split
  · rename_i noBackslash _ _ _ _ _ _ _
    simp only [List.cons_append, List.nil_append]
    rw [escapedUnits]
    simp [noBackslash]
  · exact escapedUnits_numericEscape _ (charUnits_lt c) cs

theorem escapedUnits_escape {quote : Char} (q : quote = '"' ∨ quote = '\'') (cs : List Char) :
    escapedUnits (escape quote cs) = .ok (units cs) := by
  induction cs with
  | nil =>
    simp only [escape, List.flatMap_nil]
    rw [escapedUnits]
    rfl
  | cons c cs ih =>
    have split : escape quote (c :: cs) = escapeChar quote c ++ escape quote cs := by simp [escape]
    rw [split, escapedUnits_escapeChar q, ih]
    simp [units, Except.map]

/-- An escaped text is read back. -/
theorem unescape_escape {quote : Char} (q : quote = '"' ∨ quote = '\'') (cs : List Char) :
    unescape (escape quote cs) = .ok cs := by
  simp [unescape, escapedUnits_escape q, ofUnits?_units]

end ApiSurface.Literal
