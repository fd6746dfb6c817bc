/-!
The primitives of the class file layout: numbers with the high byte first, blocks of bytes, and
repetition. A decoder takes what it needs from the front of the bytes. Main statements: what an encoder
wrote is read back and the rest is left (`u16_encode` and its like, `times_encode`).
-/

namespace ApiSurface.ClassFile

/-- Why bytes are no part of a class file. Both tell how many bytes were left. -/
inductive LayoutFault where
  /-- Fewer bytes than a number or a block needs. -/
  | tooShort (left : Nat)
  /-- A tag that has no meaning; it was read already. -/
  | unknownTag (left : Nat)
  deriving DecidableEq, Repr

/-- The fault in words. -/
def LayoutFault.message : LayoutFault → String
  | .tooShort left => "invalid class data (Eof, " ++ toString left ++ " bytes left)"
  | .unknownTag left => "invalid class data (Tag, " ++ toString left ++ " bytes left)"

/-- A function from bytes to a value at their front and the rest. -/
abbrev Decoder (α : Type) := StateT (List UInt8) (Except LayoutFault) α

/-- Refuses the tag that was just read. -/
def refuseTag {α : Type} : Decoder α := fun bytes => .error (.unknownTag bytes.length)

/-- So many bytes. -/
def block (size : Nat) : Decoder (List UInt8) := fun bytes =>
  let front := bytes.take size
  if front.length = size then .ok (front, bytes.drop size) else .error (.tooShort bytes.length)

/-- The number that bytes spell, the high one first. -/
def bigEndian (bytes : List UInt8) : Nat := bytes.foldl (fun n b => n * 0x100 + b.toNat) 0

/-- The low bytes of a number, the high one first. -/
def toBigEndian : Nat → Nat → List UInt8
  | 0, _ => []
  | size + 1, n => toBigEndian size (n / 0x100) ++ [UInt8.ofNat n]

/-- A number of so many bytes. -/
def natural (size : Nat) : Decoder Nat := do return bigEndian (← block size)

/-- One byte. -/
def u8 : Decoder UInt8 := do return UInt8.ofNat (← natural 1)

/-- A number of two bytes. -/
def u16 : Decoder UInt16 := do return UInt16.ofNat (← natural 2)

/-- A number of four bytes. -/
def u32 : Decoder UInt32 := do return UInt32.ofNat (← natural 4)

/-- A number of eight bytes. -/
def u64 : Decoder UInt64 := do return UInt64.ofNat (← natural 8)

/-- So many items. -/
def times {α : Type} (item : Decoder α) : Nat → Decoder (List α)
  | 0 => return []
  | n + 1 => do
    let a ← item
    let more ← times item n
    return a :: more

/-- Items after their number in two bytes. -/
def counted {α : Type} (item : Decoder α) : Decoder (List α) := do times item (← u16).toNat

/-! ### Encoders -/

/-- One byte. -/
def encode8 (n : UInt8) : List UInt8 := [n]

/-- A number of two bytes. -/
def encode16 (n : UInt16) : List UInt8 := toBigEndian 2 n.toNat

/-- A number of four bytes. -/
def encode32 (n : UInt32) : List UInt8 := toBigEndian 4 n.toNat

/-- A number of eight bytes. -/
def encode64 (n : UInt64) : List UInt8 := toBigEndian 8 n.toNat

/-- Items after their number in two bytes. -/
def encodeCounted {α : Type} (encode : α → List UInt8) (items : List α) : List UInt8 :=
  toBigEndian 2 items.length ++ items.flatMap encode

/-! ### Laws -/

theorem bind_of_ok {α β : Type} {d : Decoder α} {bytes rest : List UInt8} {a : α}
    (h : d bytes = .ok (a, rest)) (f : α → Decoder β) : (d >>= f) bytes = f a rest := by
  simp only [bind, StateT.bind, h, Except.bind]

theorem pure_eq_ok {α : Type} (a : α) (bytes : List UInt8) :
    (pure a : Decoder α) bytes = .ok (a, bytes) := rfl

theorem block_append (front rest : List UInt8) :
    block front.length (front ++ rest) = .ok (front, rest) := by
  simp [block]

theorem length_toBigEndian (size n : Nat) : (toBigEndian size n).length = size := by
  induction size generalizing n with
  | zero => rfl
  | succ size ih => simp [toBigEndian, ih]

theorem bigEndian_toBigEndian (size n : Nat) : bigEndian (toBigEndian size n) = n % Nat.pow 0x100 size := by
  induction size generalizing n with
  | zero => simp [toBigEndian, bigEndian, Nat.mod_one]
  | succ size ih =>
    have last (bytes : List UInt8) (b : UInt8) :
        bigEndian (bytes ++ [b]) = bigEndian bytes * 0x100 + b.toNat := by
      simp [bigEndian]
    have next : Nat.pow 0x100 (size + 1) = 0x100 * Nat.pow 0x100 size := Nat.mul_comm _ _
    rw [toBigEndian, last, ih, next, Nat.mod_mul]
    simp
    omega

theorem natural_toBigEndian {size n : Nat} (small : n < Nat.pow 0x100 size) (rest : List UInt8) :
    natural size (toBigEndian size n ++ rest) = .ok (n, rest) := by
  have whole := block_append (toBigEndian size n) rest
  rw [length_toBigEndian] at whole
  rw [natural, bind_of_ok whole, bigEndian_toBigEndian, Nat.mod_eq_of_lt small]
  rfl

theorem u8_encode (n : UInt8) (rest : List UInt8) : u8 (encode8 n ++ rest) = .ok (n, rest) := by
  have small : n.toNat < Nat.pow 0x100 1 := n.toNat_lt
  have h := natural_toBigEndian small rest
  simp only [toBigEndian, List.nil_append, UInt8.ofNat_toNat] at h
  rw [encode8, u8, bind_of_ok h]
  simp [pure_eq_ok]

theorem u16_encode (n : UInt16) (rest : List UInt8) : u16 (encode16 n ++ rest) = .ok (n, rest) := by
  rw [encode16, u16, bind_of_ok (natural_toBigEndian n.toNat_lt rest)]
  simp [pure_eq_ok]

theorem u32_encode (n : UInt32) (rest : List UInt8) : u32 (encode32 n ++ rest) = .ok (n, rest) := by
  rw [encode32, u32, bind_of_ok (natural_toBigEndian n.toNat_lt rest)]
  simp [pure_eq_ok]

theorem u64_encode (n : UInt64) (rest : List UInt8) : u64 (encode64 n ++ rest) = .ok (n, rest) := by
  rw [encode64, u64, bind_of_ok (natural_toBigEndian n.toNat_lt rest)]
  simp [pure_eq_ok]

theorem u8_cons (n : UInt8) (rest : List UInt8) : u8 (n :: rest) = .ok (n, rest) := u8_encode n rest

theorem u16_toBigEndian {n : Nat} (small : n < 0x10000) (rest : List UInt8) :
    u16 (toBigEndian 2 n ++ rest) = .ok (UInt16.ofNat n, rest) := by
  rw [u16, bind_of_ok (natural_toBigEndian small _)]
  rfl

theorem u32_toBigEndian {n : Nat} (small : n < 0x100000000) (rest : List UInt8) :
    u32 (toBigEndian 4 n ++ rest) = .ok (UInt32.ofNat n, rest) := by
  rw [u32, bind_of_ok (natural_toBigEndian small _)]
  rfl

/-- Items that are read back one by one are read back in a row. -/
theorem times_encode {α : Type} {item : Decoder α} {encode : α → List UInt8} {items : List α}
    (each : ∀ a ∈ items, ∀ rest, item (encode a ++ rest) = .ok (a, rest)) (rest : List UInt8) :
    times item items.length (items.flatMap encode ++ rest) = .ok (items, rest) := by
  induction items with
  | nil => rfl
  | cons a more ih =>
    have first := each a (by simp) (more.flatMap encode ++ rest)
    have others := ih fun b mem => each b (by simp [mem])
    simp only [List.flatMap_cons, List.append_assoc, List.length_cons, times]
    rw [bind_of_ok first, bind_of_ok others]
    rfl

/-- Items that are read back one by one are read back after their number. -/
theorem counted_encode {α : Type} {item : Decoder α} {encode : α → List UInt8} {items : List α}
    (few : items.length < 0x10000)
    (each : ∀ a ∈ items, ∀ rest, item (encode a ++ rest) = .ok (a, rest)) (rest : List UInt8) :
    counted item (encodeCounted encode items ++ rest) = .ok (items, rest) := by
  rw [encodeCounted, List.append_assoc, counted, bind_of_ok (u16_toBigEndian few _),
    UInt16.toNat_ofNat_of_lt' few, times_encode each]

end ApiSurface.ClassFile
