import ApiSurface.ClassFile.Bytes

/-!
The layout of a class file: a pool of constants, flags, references into the pool, and fields and methods
with named attributes, whose bodies are bytes. Indices of the pool begin at one, and an entry of 64 bits
takes two of them, of which the second stands for nothing. Main statement: the bytes of a class file are
read back (`decode_encode`).
-/

namespace ApiSurface

namespace ClassFile

/-- A constant. -/
inductive PoolEntry where
  /-- Text in modified UTF-8. -/
  | text (bytes : List UInt8)
  | integer (bits : UInt32)
  | float (bits : UInt32)
  | long (bits : UInt64)
  | double (bits : UInt64)
  /-- These five refer to a text. -/
  | classRef (name : UInt16)
  | stringRef (text : UInt16)
  | moduleRef (name : UInt16)
  | packageRef (name : UInt16)
  /-- References to members, and what is made at run time. -/
  | other (tag : UInt8) (content : List UInt8)
  deriving DecidableEq, Repr

/-- Whether the entry takes two indices. -/
def PoolEntry.isWide : PoolEntry → Bool
  | .long _ | .double _ => true
  | _ => false

/-- What stands at the indices of a pool, from index one on. -/
abbrev Pool := List (Option PoolEntry)

/-- Something named that belongs to a class or a member. -/
structure Attribute where
  name : UInt16
  body : List UInt8
  deriving DecidableEq, Repr

/-- A field or a method. -/
structure MemberEntry where
  flags : UInt16
  name : UInt16
  descriptor : UInt16
  attributes : List Attribute
  deriving DecidableEq, Repr

end ClassFile

/-- A class file. -/
structure ClassFile where
  minor : UInt16
  major : UInt16
  pool : ClassFile.Pool
  flags : UInt16
  thisClass : UInt16
  /-- Zero if there is none. -/
  superclass : UInt16
  interfaces : List UInt16
  fields : List ClassFile.MemberEntry
  methods : List ClassFile.MemberEntry
  attributes : List ClassFile.Attribute
  deriving DecidableEq, Repr

namespace ClassFile

/-- What every class file begins with. -/
def magic : List UInt8 := [0xCA, 0xFE, 0xBA, 0xBE]

/-- The number of bytes of an entry that is not looked into. -/
def otherSize? (tag : UInt8) : Option Nat :=
  if tag = 9 ∨ tag = 10 ∨ tag = 11 ∨ tag = 12 ∨ tag = 17 ∨ tag = 18 then some 4
  else if tag = 15 then some 3
  else if tag = 16 then some 2
  else none

/-! ### Decoding -/

/-- An entry of the pool. -/
def PoolEntry.decode : Decoder PoolEntry := do
  let tag ← u8
  if tag = 1 then return .text (← block (← u16).toNat)
  else if tag = 3 then return .integer (← u32)
  else if tag = 4 then return .float (← u32)
  else if tag = 5 then return .long (← u64)
  else if tag = 6 then return .double (← u64)
  else if tag = 7 then return .classRef (← u16)
  else if tag = 8 then return .stringRef (← u16)
  else if tag = 19 then return .moduleRef (← u16)
  else if tag = 20 then return .packageRef (← u16)
  else
    match otherSize? tag with
    | some size => return .other tag (← block size)
    | none => refuseTag

/-- What stands at so many indices; the first one may be the second of a wide entry. -/
def decodeSlots : Nat → Bool → Decoder Pool
  | 0, second => return if second then [none] else []
  | n + 1, true => do return none :: (← decodeSlots n false)
  | n + 1, false => do
    let entry ← PoolEntry.decode
    let more ← decodeSlots n entry.isWide
    return some entry :: more

/-- The pool, after the number that follows its last index. -/
def decodePool : Decoder Pool := do decodeSlots ((← u16).toNat - 1) false

/-- An attribute. -/
def Attribute.decode : Decoder Attribute := do
  let name ← u16
  let body ← block (← u32).toNat
  return ⟨name, body⟩

/-- A field or a method. -/
def MemberEntry.decode : Decoder MemberEntry := do
  let flags ← u16
  let name ← u16
  let descriptor ← u16
  let attributes ← counted Attribute.decode
  return ⟨flags, name, descriptor, attributes⟩

/-- A class file, after its first four bytes, whatever these are. -/
def decode : Decoder ClassFile := do
  let _ ← block 4
  let minor ← u16
  let major ← u16
  let pool ← decodePool
  let flags ← u16
  let thisClass ← u16
  let superclass ← u16
  let interfaces ← counted u16
  let fields ← counted MemberEntry.decode
  let methods ← counted MemberEntry.decode
  let attributes ← counted Attribute.decode
  return ⟨minor, major, pool, flags, thisClass, superclass, interfaces, fields, methods, attributes⟩

/-! ### Encoding -/

/-- The bytes of an entry of the pool. -/
def PoolEntry.encode : PoolEntry → List UInt8
  | .text bytes => 1 :: toBigEndian 2 bytes.length ++ bytes
  | .integer bits => 3 :: encode32 bits
  | .float bits => 4 :: encode32 bits
  | .long bits => 5 :: encode64 bits
  | .double bits => 6 :: encode64 bits
  | .classRef name => 7 :: encode16 name
  | .stringRef index => 8 :: encode16 index
  | .moduleRef name => 19 :: encode16 name
  | .packageRef name => 20 :: encode16 name
  | .other tag content => tag :: content

/-- The bytes of what stands at some indices. -/
def encodeSlots (slots : Pool) : List UInt8 := slots.flatMap fun slot => (slot.map PoolEntry.encode).getD []

/-- The bytes of a pool. -/
def encodePool (slots : Pool) : List UInt8 := toBigEndian 2 (slots.length + 1) ++ encodeSlots slots

/-- The bytes of an attribute. -/
def Attribute.encode (a : Attribute) : List UInt8 :=
  encode16 a.name ++ toBigEndian 4 a.body.length ++ a.body

/-- The bytes of a field or a method. -/
def MemberEntry.encode (m : MemberEntry) : List UInt8 :=
  encode16 m.flags ++ encode16 m.name ++ encode16 m.descriptor ++ encodeCounted Attribute.encode m.attributes

/-- The bytes of a class file. -/
def encode (c : ClassFile) : List UInt8 :=
  magic ++ encode16 c.minor ++ encode16 c.major ++ encodePool c.pool ++ encode16 c.flags ++
    encode16 c.thisClass ++ encode16 c.superclass ++ encodeCounted encode16 c.interfaces ++
    encodeCounted MemberEntry.encode c.fields ++ encodeCounted MemberEntry.encode c.methods ++
    encodeCounted Attribute.encode c.attributes

/-! ### What fits into the layout -/

/-- Whether the parts of an entry have the sizes that its tag asks for. -/
def PoolEntry.Fits : PoolEntry → Prop
  | .text bytes => bytes.length < 0x10000
  | .other tag content => otherSize? tag = some content.length
  | _ => True

/-- Whether a pool is one entry after the other, each wide one with an index without meaning after it.
The flag tells whether the first index is the second of a wide entry. -/
def SlotsFit : Bool → Pool → Prop
  | second, [] => second = false
  | true, slot :: more => slot = none ∧ SlotsFit false more
  | false, slot :: more => ∃ entry, slot = some entry ∧ entry.Fits ∧ SlotsFit entry.isWide more

/-- Whether the body of an attribute has a length. -/
def Attribute.Fits (a : Attribute) : Prop := a.body.length < 0x100000000

/-- Whether the attributes of a member have lengths and a number. -/
def MemberEntry.Fits (m : MemberEntry) : Prop :=
  m.attributes.length < 0x10000 ∧ ∀ a ∈ m.attributes, a.Fits

/-- Whether all numbers and lengths of a class file have room in the layout. -/
structure Fits (c : ClassFile) : Prop where
  pool : c.pool.length + 1 < 0x10000 ∧ SlotsFit false c.pool
  interfaces : c.interfaces.length < 0x10000
  fields : c.fields.length < 0x10000 ∧ ∀ m ∈ c.fields, m.Fits
  methods : c.methods.length < 0x10000 ∧ ∀ m ∈ c.methods, m.Fits
  attributes : c.attributes.length < 0x10000 ∧ ∀ a ∈ c.attributes, a.Fits

/-! ### Laws -/

theorem poolEntry_decode_encode {entry : PoolEntry} (fits : entry.Fits) (rest : List UInt8) :
    PoolEntry.decode (entry.encode ++ rest) = .ok (entry, rest) := by
  cases entry with
  | text bytes =>
    have size := u16_toBigEndian fits (bytes ++ rest)
    simp only [PoolEntry.encode, List.cons_append, List.append_assoc, PoolEntry.decode]
    rw [bind_of_ok (u8_cons _ _)]
    simp only [↓reduceIte]
    rw [bind_of_ok size, UInt16.toNat_ofNat_of_lt' fits, bind_of_ok (block_append _ _)]
    rfl
  | other tag content =>
    have size : otherSize? tag = some content.length := fits
    simp only [PoolEntry.encode, List.cons_append, PoolEntry.decode]
    rw [bind_of_ok (u8_cons _ _)]
    have known : otherSize? tag ≠ none := by simp [size]
    have apart : tag ≠ 1 ∧ tag ≠ 3 ∧ tag ≠ 4 ∧ tag ≠ 5 ∧ tag ≠ 6 ∧ tag ≠ 7 ∧ tag ≠ 8 ∧ tag ≠ 19 ∧
        tag ≠ 20 := by
      refine ⟨?_, ?_, ?_, ?_, ?_, ?_, ?_, ?_, ?_⟩ <;> rintro rfl <;> exact known (by decide)
    obtain ⟨h1, h3, h4, h5, h6, h7, h8, h19, h20⟩ := apart
    simp only [if_neg h1, if_neg h3, if_neg h4, if_neg h5, if_neg h6, if_neg h7, if_neg h8, if_neg h19,
      if_neg h20, size]
    rw [bind_of_ok (block_append _ _)]
    rfl
  | integer bits | float bits =>
    simp only [PoolEntry.encode, List.cons_append, PoolEntry.decode]
    rw [bind_of_ok (u8_cons _ _)]
    simp +decide only [if_true, if_false]
    rw [bind_of_ok (u32_encode _ _)]
    rfl
  | long bits | double bits =>
    simp only [PoolEntry.encode, List.cons_append, PoolEntry.decode]
    rw [bind_of_ok (u8_cons _ _)]
    simp +decide only [if_true, if_false]
    rw [bind_of_ok (u64_encode _ _)]
    rfl
  | classRef index | stringRef index | moduleRef index | packageRef index =>
    simp only [PoolEntry.encode, List.cons_append, PoolEntry.decode]
    rw [bind_of_ok (u8_cons _ _)]
    simp +decide only [if_true, if_false]
    rw [bind_of_ok (u16_encode _ _)]
    rfl

theorem decodeSlots_encode {slots : Pool} {second : Bool} (fit : SlotsFit second slots)
    (rest : List UInt8) :
    decodeSlots slots.length second (encodeSlots slots ++ rest) = .ok (slots, rest) := by
  induction slots generalizing second with
  | nil =>
    obtain rfl : second = false := fit
    rfl
  | cons slot more ih =>
    cases second with
    | true =>
      obtain ⟨rfl, fit⟩ := fit
      simp only [encodeSlots, List.flatMap_cons, Option.map_none, Option.getD_none, List.nil_append,
        List.length_cons, decodeSlots]
      have others := ih fit
      simp only [encodeSlots] at others
      rw [bind_of_ok others]
      rfl
    | false =>
      obtain ⟨entry, rfl, fits, fit⟩ := fit
      simp only [encodeSlots, List.flatMap_cons, Option.map_some, Option.getD_some, List.append_assoc,
        List.length_cons, decodeSlots]
      rw [bind_of_ok (poolEntry_decode_encode fits _)]
      have others := ih fit
      simp only [encodeSlots] at others
      rw [bind_of_ok others]
      rfl

theorem decodePool_encode {slots : Pool} (few : slots.length + 1 < 0x10000) (fit : SlotsFit false slots)
    (rest : List UInt8) : decodePool (encodePool slots ++ rest) = .ok (slots, rest) := by
  rw [encodePool, List.append_assoc, decodePool, bind_of_ok (u16_toBigEndian few _),
    UInt16.toNat_ofNat_of_lt' few]
  exact decodeSlots_encode fit rest

theorem attribute_decode_encode {a : Attribute} (fits : a.Fits) (rest : List UInt8) :
    Attribute.decode (a.encode ++ rest) = .ok (a, rest) := by
  simp only [Attribute.encode, List.append_assoc, Attribute.decode]
  rw [bind_of_ok (u16_encode _ _), bind_of_ok (u32_toBigEndian fits _),
    UInt32.toNat_ofNat_of_lt' fits, bind_of_ok (block_append _ _)]
  rfl

theorem member_decode_encode {m : MemberEntry} (fits : m.Fits) (rest : List UInt8) :
    MemberEntry.decode (m.encode ++ rest) = .ok (m, rest) := by
  simp only [MemberEntry.encode, List.append_assoc, MemberEntry.decode]
  rw [bind_of_ok (u16_encode _ _), bind_of_ok (u16_encode _ _), bind_of_ok (u16_encode _ _),
    bind_of_ok (counted_encode fits.1 (fun a mem => attribute_decode_encode (fits.2 a mem)) _)]
  rfl

/-- The bytes of a class file are read back, and what follows them is left. -/
theorem decode_encode {c : ClassFile} (fits : c.Fits) (rest : List UInt8) :
    decode (c.encode ++ rest) = .ok (c, rest) := by
  simp only [encode, List.append_assoc, decode]
  have lead (rest : List UInt8) : block 4 (magic ++ rest) = .ok (magic, rest) := block_append magic rest
  rw [bind_of_ok (lead _), bind_of_ok (u16_encode _ _), bind_of_ok (u16_encode _ _),
    bind_of_ok (decodePool_encode fits.pool.1 fits.pool.2 _), bind_of_ok (u16_encode _ _),
    bind_of_ok (u16_encode _ _), bind_of_ok (u16_encode _ _),
    bind_of_ok (counted_encode fits.interfaces (fun n _ => u16_encode n) _),
    bind_of_ok (counted_encode fits.fields.1 (fun m mem => member_decode_encode (fits.fields.2 m mem)) _),
    bind_of_ok (counted_encode fits.methods.1 (fun m mem => member_decode_encode (fits.methods.2 m mem)) _),
    bind_of_ok (counted_encode fits.attributes.1
      (fun a mem => attribute_decode_encode (fits.attributes.2 a mem)) _)]
  rfl

end ClassFile

end ApiSurface
