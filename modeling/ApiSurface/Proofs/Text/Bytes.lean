import ApiSurface.Text.Basic

/-!
Text as its bytes in UTF-8, and places in it as numbers of bytes. A text can only be cut where a character
begins or the text ends; a cut anywhere else, or behind the end, has no result. Main statements: a byte
below 128 is an ASCII character of its own (`eq_of_mem_utf8`), and a text can be cut out and replaced just
between two places where a character begins or the text ends (`slice?_eq_some_iff`,
`replaceRange?_eq_some_iff`).
-/

namespace ApiSurface.Text

/-! ### Spelling -/

/-- The bytes of a text. -/
def bytes (cs : List Char) : List UInt8 := cs.flatMap String.utf8EncodeChar

/-- Characters of one byte. -/
def IsAscii (c : Char) : Prop := c.toNat < 0x80

instance (c : Char) : Decidable (IsAscii c) := inferInstanceAs (Decidable (_ < _))

theorem length_bytes (cs : List Char) : (bytes cs).length = byteLength cs := by
  induction cs with
  | nil => rfl
  | cons c cs ih =>
    rw [bytes, List.flatMap_cons, List.length_append, String.length_utf8EncodeChar, ← bytes, ih]
    rfl

theorem bytes_append (as bs : List Char) : bytes (as ++ bs) = bytes as ++ bytes bs := List.flatMap_append

theorem utf8Size_of_ascii {c : Char} (h : IsAscii c) : c.utf8Size = 1 := by
  rw [Char.utf8Size_eq_one_iff, UInt32.le_iff_toNat_le]
  exact Nat.le_of_lt_succ h

/-- The byte of an ASCII character has its number. -/
theorem utf8_of_ascii {c : Char} (h : IsAscii c) : String.utf8EncodeChar c = [c.toUInt8] := by
  rw [String.utf8EncodeChar_eq_singleton (utf8Size_of_ascii h)]
  rfl

/-- Every byte of a longer spelling is 128 at least. -/
theorem high_of_mem_utf8 {c : Char} (h : ¬IsAscii c) {b : UInt8} (mem : b ∈ String.utf8EncodeChar c) :
    0x80 ≤ b.toNat := by
  have large {n : Nat} (same : b = UInt8.ofNat n) (low : 128 ≤ n) (high : n < 256) : 0x80 ≤ b.toNat := by
    simp [same]
    omega
  unfold String.utf8EncodeChar at mem
  dsimp only at mem
  split at mem
  · rename_i small
    exact absurd (Nat.lt_succ_of_le small) h
  · split at mem
    · simp only [List.mem_cons, List.not_mem_nil, or_false] at mem
      rcases mem with same | same <;> exact large same (by omega) (by omega)
    · split at mem
      · simp only [List.mem_cons, List.not_mem_nil, or_false] at mem
        rcases mem with same | same | same <;> exact large same (by omega) (by omega)
      · simp only [List.mem_cons, List.not_mem_nil, or_false] at mem
        rcases mem with same | same | same | same <;> exact large same (by omega) (by omega)

theorem toNat_toUInt8 {c : Char} (h : IsAscii c) : c.toUInt8.toNat = c.toNat := by
  have small : c.toNat < 256 := Nat.lt_trans h (by decide)
  exact Nat.mod_eq_of_lt small

/-- Only an ASCII character is spelled with its byte. -/
theorem eq_of_mem_utf8 {c d : Char} (h : IsAscii c) (mem : c.toUInt8 ∈ String.utf8EncodeChar d) : d = c := by
  by_cases ascii : IsAscii d
  · rw [utf8_of_ascii ascii, List.mem_singleton] at mem
    have same := congrArg UInt8.toNat mem
    rw [toNat_toUInt8 h, toNat_toUInt8 ascii] at same
    exact (Char.ext (UInt32.toNat_inj.1 same)).symm
  · have high := high_of_mem_utf8 ascii mem
    rw [toNat_toUInt8 h] at high
    exact absurd h (Nat.not_lt.2 high)

/-! ### Places -/

/-- The text before and behind this byte; nothing if no character begins there. -/
def splitAt? : List Char → Nat → Option (List Char × List Char)
  | cs, 0 => some ([], cs)
  | [], _ + 1 => none
  | c :: cs, n + 1 =>
    if c.utf8Size ≤ n + 1 then
      (splitAt? cs (n + 1 - c.utf8Size)).map fun (front, rest) => (c :: front, rest)
    else none

/-- The text from this byte on. -/
def restAt? (s : List Char) (place : Nat) : Option (List Char) := (splitAt? s place).map (·.2)

/-- The text between two bytes. -/
def slice? (s : List Char) (a b : Nat) : Option (List Char) :=
  if a ≤ b then (restAt? s a).bind fun rest => (splitAt? rest (b - a)).map (·.1) else none

/-- The text with another one between two bytes. -/
def replaceRange? (s : List Char) (a b : Nat) (text : List Char) : Option (List Char) :=
  if a ≤ b then
    (splitAt? s a).bind fun (front, rest) => (splitAt? rest (b - a)).map fun (_, back) => front ++ text ++ back
  else none

/-- The byte at this place, as the character of the same number. -/
def byteAt? (s : List Char) (place : Nat) : Option Char := ((bytes s)[place]?).map Char.ofUInt8

theorem splitAt?_eq_some_iff {s front rest : List Char} {place : Nat} :
    splitAt? s place = some (front, rest) ↔ s = front ++ rest ∧ byteLength front = place := by
  fun_induction splitAt? s place generalizing front rest with
  | case1 s =>
    constructor
    · intro h
      cases h
      exact ⟨rfl, rfl⟩
    · rintro ⟨rfl, empty⟩
      cases front with
      | nil => rfl
      | cons c front =>
        have := c.utf8Size_pos
        rw [byteLength_cons] at empty
        omega
  | case2 n =>
    simp only [reduceCtorEq, false_iff, not_and]
    intro whole
    obtain ⟨rfl, -⟩ := List.append_eq_nil_iff.1 whole.symm
    simp
  | case3 c cs n fits ih =>
    simp only [Option.map_eq_some_iff, Prod.exists, Prod.mk.injEq, ih]
    constructor
    · rintro ⟨front, rest, ⟨rfl, length⟩, rfl, rfl⟩
      rw [byteLength_cons]
      exact ⟨rfl, by omega⟩
    · rintro ⟨whole, length⟩
      cases front with
      | nil => cases length
      | cons d front =>
        obtain ⟨rfl, rfl⟩ := List.cons.inj whole
        rw [byteLength_cons] at length
        exact ⟨front, rest, ⟨rfl, by omega⟩, rfl, rfl⟩
  | case4 c cs n long =>
    simp only [reduceCtorEq, false_iff, not_and]
    intro whole
    cases front with
    | nil => simp
    | cons d front =>
      obtain ⟨rfl, -⟩ := List.cons.inj whole
      rw [byteLength_cons]
      omega

theorem restAt?_eq_some_iff {s rest : List Char} {place : Nat} :
    restAt? s place = some rest ↔ ∃ front, s = front ++ rest ∧ byteLength front = place := by
  simp [restAt?, splitAt?_eq_some_iff]

theorem restAt?_zero (s : List Char) : restAt? s 0 = some s := restAt?_eq_some_iff.2 ⟨[], rfl, rfl⟩

theorem restAt?_byteLength (s : List Char) : restAt? s (byteLength s) = some [] :=
  restAt?_eq_some_iff.2 ⟨s, by simp, rfl⟩

section

variable {s a b rest : List Char} {c : Char} {cs : List Char} {i j : Nat}

/-- Reading on from a place. -/
theorem restAt?_append (h : restAt? s i = some (a ++ b)) : restAt? s (i + byteLength a) = some b := by
  obtain ⟨front, rfl, rfl⟩ := restAt?_eq_some_iff.1 h
  exact restAt?_eq_some_iff.2 ⟨front ++ a, by simp, by simp⟩

theorem restAt?_cons (h : restAt? s i = some (c :: cs)) : restAt? s (i + c.utf8Size) = some cs :=
  restAt?_append (a := [c]) h

theorem restAt?_cons_ascii (ascii : IsAscii c) (h : restAt? s i = some (c :: cs)) : restAt? s (i + 1) = some cs := by
  rw [← utf8Size_of_ascii ascii]
  exact restAt?_cons h

/-- A place and what is left there make up the length of the text. -/
theorem add_byteLength_of_restAt? (h : restAt? s i = some rest) : i + byteLength rest = byteLength s := by
  obtain ⟨front, rfl, rfl⟩ := restAt?_eq_some_iff.1 h
  rw [byteLength_append]

/-- There is one place where so much is left. -/
theorem place_unique (h : restAt? s i = some rest) (h' : restAt? s j = some rest) : i = j := by
  have := add_byteLength_of_restAt? h
  have := add_byteLength_of_restAt? h'
  omega

/-- Where no more is left is no earlier. -/
theorem le_of_restAt? (h : restAt? s i = some cs) (h' : restAt? s j = some rest) (less : rest <:+ cs) : i ≤ j := by
  obtain ⟨front, rfl⟩ := less
  have here := add_byteLength_of_restAt? h
  have there := add_byteLength_of_restAt? h'
  rw [byteLength_append] at here
  omega

/-- Where less is left is further on. -/
theorem lt_of_restAt? (h : restAt? s i = some (c :: cs)) (h' : restAt? s j = some rest) (less : rest <:+ cs) :
    i < j ∧ j ≤ byteLength s := by
  obtain ⟨front, rfl⟩ := less
  have here := add_byteLength_of_restAt? h
  have there := add_byteLength_of_restAt? h'
  have := c.utf8Size_pos
  simp only [byteLength_cons, byteLength_append] at here
  omega

/-- A text is cut out between two places where a character begins or the text ends, the first one first. -/
theorem slice?_eq_some_iff : slice? s i j = some a ↔ ∃ front back, s = front ++ a ++ back ∧
    byteLength front = i ∧ byteLength (front ++ a) = j := by
  simp only [slice?, Option.ite_none_right_eq_some, Option.bind_eq_some_iff, restAt?_eq_some_iff, Option.map_eq_some_iff,
    Prod.exists, splitAt?_eq_some_iff, byteLength_append]
  constructor
  · rintro ⟨le, _, ⟨front, rfl, rfl⟩, _, back, ⟨rfl, length⟩, rfl⟩
    exact ⟨front, back, by simp, rfl, by omega⟩
  · rintro ⟨front, back, rfl, rfl, rfl⟩
    exact ⟨Nat.le_add_right .., a ++ back, ⟨front, by simp, rfl⟩, a, back, ⟨rfl, by omega⟩, rfl⟩

/-- Between two places stands what is read from one to the other. -/
theorem slice?_of_restAt? (h : restAt? s i = some (a ++ rest)) (h' : restAt? s j = some rest) :
    slice? s i j = some a := by
  obtain ⟨front, rfl, rfl⟩ := restAt?_eq_some_iff.1 h
  exact slice?_eq_some_iff.2 ⟨front, rest, by simp, rfl, (by simpa using place_unique (restAt?_append h) h')⟩

theorem slice?_byteLength (h : restAt? s i = some rest) : slice? s i (byteLength s) = some rest :=
  slice?_of_restAt? (by simpa using h) (restAt?_byteLength s)

/-- A text is put between two places as it is cut out there. -/
theorem replaceRange?_eq_some_iff {text out : List Char} : replaceRange? s i j text = some out ↔
    ∃ front a back, s = front ++ a ++ back ∧ byteLength front = i ∧ byteLength (front ++ a) = j ∧
      out = front ++ text ++ back := by
  simp only [replaceRange?, Option.ite_none_right_eq_some, Option.bind_eq_some_iff, Option.map_eq_some_iff, Prod.exists,
    splitAt?_eq_some_iff, byteLength_append]
  constructor
  · rintro ⟨le, front, _, ⟨rfl, rfl⟩, a, back, ⟨rfl, length⟩, rfl⟩
    exact ⟨front, a, back, by simp, rfl, by omega, rfl⟩
  · rintro ⟨front, a, back, rfl, rfl, rfl, rfl⟩
    exact ⟨Nat.le_add_right .., front, a ++ back, ⟨by simp, rfl⟩, a, back, ⟨rfl, by omega⟩, rfl⟩

/-! ### Bytes at a place -/

theorem byteAt?_eq_none_iff : byteAt? s i = none ↔ byteLength s ≤ i := by
  simp [byteAt?, length_bytes]

theorem lt_of_byteAt? (h : byteAt? s i = some c) : i < byteLength s := by
  rw [← Nat.not_le, ← byteAt?_eq_none_iff, h]
  simp

theorem byteAt?_of_restAt?_nil (h : restAt? s i = some []) : byteAt? s i = none := by
  have length := add_byteLength_of_restAt? h
  exact byteAt?_eq_none_iff.2 (Nat.le_of_eq (by simpa using length.symm))

/-- The bytes at a place are those of the text left there. -/
theorem byteAt?_add_of_restAt? (h : restAt? s i = some rest) (j : Nat) :
    byteAt? s (i + j) = ((bytes rest)[j]?).map Char.ofUInt8 := by
  obtain ⟨front, rfl, rfl⟩ := restAt?_eq_some_iff.1 h
  rw [byteAt?, bytes_append, ← length_bytes, List.getElem?_append_right (Nat.le_add_right ..), Nat.add_sub_cancel_left]

theorem ofUInt8_toUInt8 (ascii : IsAscii c) : Char.ofUInt8 c.toUInt8 = c :=
  Char.ext (UInt32.toNat_inj.1 (toNat_toUInt8 ascii))

theorem byteAt?_of_restAt?_cons (ascii : IsAscii c) (h : restAt? s i = some (c :: cs)) : byteAt? s i = some c := by
  have byte := byteAt?_add_of_restAt? h 0
  rw [Nat.add_zero, bytes, List.flatMap_cons, utf8_of_ascii ascii] at byte
  simpa [ofUInt8_toUInt8 ascii] using byte

/-- No byte of another character is an ASCII character. -/
theorem exists_byteAt?_of_restAt?_cons (high : ¬IsAscii c) (h : restAt? s i = some (c :: cs))
    (inside : j < c.utf8Size) : ∃ d, byteAt? s (i + j) = some d ∧ ¬IsAscii d := by
  have length : j < (String.utf8EncodeChar c).length := by rwa [String.length_utf8EncodeChar]
  refine ⟨Char.ofUInt8 (String.utf8EncodeChar c)[j], ?_, ?_⟩
  · rw [byteAt?_add_of_restAt? h, bytes, List.flatMap_cons, List.getElem?_append_left length,
      List.getElem?_eq_getElem length, Option.map_some]
  · exact Nat.not_lt.2 (high_of_mem_utf8 high (List.getElem_mem length))

end

end ApiSurface.Text
