import ApiSurface.Text.Units

/-!
Text as bytes: plain UTF-8, and the modified form of it that class files use. The modified form spells
every 16-bit code unit on its own, in one to three bytes, and the unit zero in two, so that no byte is
zero. Main statement: the spelling of a unit is read back (`readUnit?_unitBytes`).
-/

namespace ApiSurface.Text

/-- The text of some bytes in UTF-8. -/
def decodeUtf8? (bytes : List UInt8) : Option (List Char) :=
  (String.fromUTF8? ⟨bytes.toArray⟩).map String.toList

/-- The low six bits of a byte that continues a sequence. -/
def continuation? (byte : UInt8) : Option Nat :=
  if 0x80 ≤ byte.toNat ∧ byte.toNat < 0xC0 then some (byte.toNat - 0x80) else none

/-- Takes the byte that continues a sequence and adds its bits to the value so far. -/
def continue? (value : Nat) : List UInt8 → Option (Nat × List UInt8)
  | [] => none
  | byte :: rest => (continuation? byte).map fun bits => (value * 0x40 + bits, rest)

/-- Takes the spelling of one code unit; each unit has one spelling. -/
def readUnit? : List UInt8 → Option (Nat × List UInt8)
  | [] => none
  | first :: rest =>
    let lead := first.toNat
    if lead = 0 then none
    else if lead < 0x80 then some (lead, rest)
    else if lead < 0xC0 then none
    else if lead < 0xE0 then
      (continue? (lead - 0xC0) rest).filter fun (unit, _) => unit == 0 || 0x80 ≤ unit
    else if lead < 0xF0 then
      ((continue? (lead - 0xE0) rest).bind fun (value, rest) => continue? value rest).filter
        fun (unit, _) => 0x800 ≤ unit
    else none

theorem continue?_length {value unit : Nat} {bytes rest : List UInt8}
    (h : continue? value bytes = some (unit, rest)) : rest.length < bytes.length := by
  cases bytes with
  | nil => simp [continue?] at h
  | cons byte bytes =>
    simp only [continue?, Option.map_eq_some_iff, Prod.mk.injEq] at h
    obtain ⟨bits, -, -, rfl⟩ := h
    simp

theorem readUnit?_length {bytes rest : List UInt8} {unit : Nat}
    (h : readUnit? bytes = some (unit, rest)) : rest.length < bytes.length := by
  cases bytes with
  | nil => simp [readUnit?] at h
  | cons first bytes =>
    simp only [readUnit?] at h
    split at h
    · simp at h
    split at h
    · simp_all
    split at h
    · simp at h
    split at h
    · have shorter := continue?_length (Option.filter_eq_some_iff.1 h).1
      simp only [List.length_cons]
      omega
    split at h
    · obtain ⟨found, -⟩ := Option.filter_eq_some_iff.1 h
      obtain ⟨⟨value, between⟩, first, second⟩ := Option.bind_eq_some_iff.1 found
      have shorter : between.length < bytes.length := continue?_length first
      have shorter' : rest.length < between.length := continue?_length second
      simp only [List.length_cons]
      omega
    · simp at h

/-- The code units of a text in the modified form. -/
def modifiedUnits? (bytes : List UInt8) : Option (List Nat) :=
  if bytes.isEmpty then some []
  else
    match h : readUnit? bytes with
    | none => none
    | some (unit, rest) =>
      have := readUnit?_length h
      (modifiedUnits? rest).map (unit :: ·)
termination_by bytes.length

/-- The text of some bytes that are in UTF-8 as a whole, or else in the modified form. -/
def decodeModifiedUtf8? (bytes : List UInt8) : Option (List Char) :=
  match decodeUtf8? bytes with
  | some cs => some cs
  | none => (modifiedUnits? bytes).bind ofUnits?

/-! ### Damaged text -/

/-- How a sequence of more than one byte goes on after this first byte: how many bytes follow, and from
where to where the second one may be. -/
def following? (first : Nat) : Option (Nat × Nat × Nat) :=
  if first < 0xC2 then none
  else if first < 0xE0 then some (1, 0x80, 0xBF)
  else if first = 0xE0 then some (2, 0xA0, 0xBF)
  else if first = 0xED then some (2, 0x80, 0x9F)
  else if first < 0xF0 then some (2, 0x80, 0xBF)
  else if first = 0xF0 then some (3, 0x90, 0xBF)
  else if first < 0xF4 then some (3, 0x80, 0xBF)
  else if first = 0xF4 then some (3, 0x80, 0x8F)
  else none

/-- What stands for damaged bytes. -/
def replacement : Char := '\ufffd'

/-- The text of bytes in UTF-8. `value` is what the sequence at hand spells so far, and `pending` how many
bytes it lacks, the next one of them between the bounds. A sequence that breaks off is replaced as a
whole, and the byte that does not belong to it begins anew. -/
def decodeDamagedFrom : (value pending low high : Nat) → List UInt8 → List Char
  | _, 0, _, _, [] => []
  | _, _ + 1, _, _, [] => [replacement]
  | value, pending, low, high, byte :: rest =>
    let b := byte.toNat
    let begin : List Char :=
      if b < 0x80 then Char.ofNat b :: decodeDamagedFrom 0 0 0 0 rest
      else
        match following? b with
        | none => replacement :: decodeDamagedFrom 0 0 0 0 rest
        | some (count, low, high) =>
          decodeDamagedFrom (b % 2 ^ (6 - count)) count low high rest
    match pending with
    | 0 => begin
    | pending + 1 =>
      if low ≤ b ∧ b ≤ high then
        let value := value * 0x40 + b % 0x40
        if pending = 0 then Char.ofNat value :: decodeDamagedFrom 0 0 0 0 rest
        else decodeDamagedFrom value pending 0x80 0xBF rest
      else replacement :: begin

/-- The text of bytes that should be in UTF-8. -/
def decodeDamaged (bytes : List UInt8) : List Char := decodeDamagedFrom 0 0 0 0 bytes

/-! ### Spelling -/

/-- The bytes of a code unit in the modified form. -/
def unitBytes (unit : Nat) : List UInt8 :=
  if unit ≠ 0 ∧ unit < 0x80 then [UInt8.ofNat unit]
  else if unit < 0x800 then [UInt8.ofNat (0xC0 + unit / 0x40), UInt8.ofNat (0x80 + unit % 0x40)]
  else
    [UInt8.ofNat (0xE0 + unit / 0x1000), UInt8.ofNat (0x80 + unit / 0x40 % 0x40),
      UInt8.ofNat (0x80 + unit % 0x40)]

theorem continue?_cons {bits : Nat} (small : bits < 0x40) (value : Nat) (rest : List UInt8) :
    continue? value (UInt8.ofNat (0x80 + bits) :: rest) = some (value * 0x40 + bits, rest) := by
  have byte : (UInt8.ofNat (0x80 + bits)).toNat = 0x80 + bits := by simp; omega
  have inRange : 0x80 ≤ 0x80 + bits ∧ 0x80 + bits < 0xC0 := by omega
  rw [continue?, continuation?, byte, if_pos inRange]
  simp

/-- The spelling of a unit is read back. -/
theorem readUnit?_unitBytes {unit : Nat} (small : unit < 0x10000) (rest : List UInt8) :
    readUnit? (unitBytes unit ++ rest) = some (unit, rest) := by
  unfold unitBytes
  split
  · have byte : (UInt8.ofNat unit).toNat = unit := by simp; omega
    simp only [List.cons_append, List.nil_append, readUnit?, byte]
    rw [if_neg (by omega), if_pos (by omega)]
  · split
    · have lead : (UInt8.ofNat (0xC0 + unit / 0x40)).toNat = 0xC0 + unit / 0x40 := by simp; omega
      have whole : (0xC0 + unit / 0x40 - 0xC0) * 0x40 + unit % 0x40 = unit := by omega
      simp only [List.cons_append, List.nil_append, readUnit?, lead]
      rw [if_neg (by omega), if_neg (by omega), if_neg (by omega), if_pos (by omega),
        continue?_cons (by omega), whole]
      simp [Option.filter]
      omega
    · have lead : (UInt8.ofNat (0xE0 + unit / 0x1000)).toNat = 0xE0 + unit / 0x1000 := by simp; omega
      have whole : ((0xE0 + unit / 0x1000 - 0xE0) * 0x40 + unit / 0x40 % 0x40) * 0x40 + unit % 0x40 =
        unit := by omega
      simp only [List.cons_append, List.nil_append, readUnit?, lead]
      rw [if_neg (by omega), if_neg (by omega), if_neg (by omega), if_neg (by omega),
        if_pos (by omega), continue?_cons (by omega), Option.bind_some, continue?_cons (by omega), whole]
      simp [Option.filter]
      omega

end ApiSurface.Text
