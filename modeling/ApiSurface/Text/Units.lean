/-!
UTF-16 code units. A character below 0x10000 is one unit, any other a high and a low surrogate. Main
statement: the units of a text are read back as the text (`ofUnits?_units`).
-/

namespace ApiSurface.Text

/-- The code units of one character. -/
def charUnits (c : Char) : List Nat :=
  if c.toNat < 0x10000 then [c.toNat]
  else [0xD800 + (c.toNat - 0x10000) / 0x400, 0xDC00 + (c.toNat - 0x10000) % 0x400]

/-- The code units of a text. -/
def units (cs : List Char) : List Nat := cs.flatMap charUnits

/-- Units that begin a pair. -/
def isHighSurrogate (u : Nat) : Bool := 0xD800 ≤ u && u < 0xDC00

/-- Units that end a pair. -/
def isLowSurrogate (u : Nat) : Bool := 0xDC00 ≤ u && u < 0xE000

/-- The text with these code units, if every surrogate is part of a pair. -/
def ofUnits? : List Nat → Option (List Char)
  | [] => some []
  | u :: us =>
    if isHighSurrogate u then
      match us with
      | v :: rest =>
        if isLowSurrogate v then
          (ofUnits? rest).map (Char.ofNat (0x10000 + (u - 0xD800) * 0x400 + (v - 0xDC00)) :: ·)
        else none
      | [] => none
    else if isLowSurrogate u then none
    else (ofUnits? us).map (Char.ofNat u :: ·)

/-! ### Laws -/

/-- The number of a character is no surrogate and below 0x110000. -/
theorem toNat_range (c : Char) : c.toNat < 0xD800 ∨ (0xDFFF < c.toNat ∧ c.toNat < 0x110000) := by
  exact c.valid

/-- A unit that is no surrogate is a character by itself. -/
theorem ofUnits?_cons {u : Nat} {us : List Nat} (high : isHighSurrogate u = false)
    (low : isLowSurrogate u = false) :
    ofUnits? (u :: us) = (ofUnits? us).map (Char.ofNat u :: ·) := by
  cases us <;> simp [ofUnits?, high, low]

/-- A character in front of units is read back in front of their text. -/
theorem ofUnits?_charUnits (c : Char) (us : List Nat) :
    ofUnits? (charUnits c ++ us) = (ofUnits? us).map (c :: ·) := by
  have range := toNat_range c
  unfold charUnits
  split
  · rename_i small
    have high : isHighSurrogate c.toNat = false := by simp [isHighSurrogate]; omega
    have low : isLowSurrogate c.toNat = false := by simp [isLowSurrogate]; omega
    simp [ofUnits?_cons high low]
  · rename_i large
    have high : isHighSurrogate (0xD800 + (c.toNat - 0x10000) / 0x400) = true := by
      simp [isHighSurrogate]; omega
    have low : isLowSurrogate (0xDC00 + (c.toNat - 0x10000) % 0x400) = true := by
      simp [isLowSurrogate]; omega
    have back : 0x10000 + ((0xD800 + (c.toNat - 0x10000) / 0x400) - 0xD800) * 0x400 +
        ((0xDC00 + (c.toNat - 0x10000) % 0x400) - 0xDC00) = c.toNat := by omega
    simp only [List.cons_append, List.nil_append, ofUnits?, high, low, if_true, back, Char.ofNat_toNat]

/-- The units of a text are read back as the text. -/
theorem ofUnits?_units (cs : List Char) : ofUnits? (units cs) = some cs := by
  induction cs with
  | nil => rfl
  | cons c cs ih =>
    have split : units (c :: cs) = charUnits c ++ units cs := by simp [units]
    rw [split, ofUnits?_charUnits, ih]
    rfl

end ApiSurface.Text
