/-!
Compressed entries. Bits are taken from the low end of every byte. A block is stored, or is a row of
symbols that stand for bytes and for copies of earlier output; codes are canonical, so that the lengths
of the code words determine them. Main statements: every symbol takes a bit (`decodeSymbol_length`), and
the bits of a number are read back (`takeBits_bitsOf`).
-/

namespace ApiSurface.Archive

/-- The low bits of a number, the lowest one first. -/
def bitsOf (count n : Nat) : List Bool := (List.range count).map n.testBit

/-- The bits of bytes in their order. -/
def allBits (bytes : List UInt8) : List Bool := bytes.flatMap fun b => bitsOf 8 b.toNat

/-- The number that bits spell, the lowest one first. -/
def ofBits : List Bool → Nat
  | [] => 0
  | b :: more => b.toNat + 2 * ofBits more

/-- Takes a number of so many bits. -/
def takeBits (count : Nat) (bits : List Bool) : Option (Nat × List Bool) :=
  let front := bits.take count
  if front.length = count then some (ofBits front, bits.drop count) else none

/-! ### Codes -/

/-- A canonical code: the symbols with code words of one, two, three bits and so on, each in order. -/
abbrev Code := List (List Nat)

/-- The longest code word. -/
def longest : Nat := 15

/-- The code in which the symbols have these lengths; a length of zero means no code word. -/
def codeOfLengths (lengths : List Nat) : Code :=
  (List.range longest).map fun n =>
    (lengths.zipIdx.filter fun (length, _) => length == n + 1).map Prod.snd

/-- Whether every row of bits begins with one code word. A code without symbols may do without, and a code
with one symbol whose code word is a single bit. -/
def isUsable (lengths : List Nat) : Bool :=
  let used := lengths.filter (· != 0)
  used == [] || used == [1] || used.foldl (fun sum length => sum + Nat.pow 2 (longest - length)) 0 == Nat.pow 2 longest

/-- Takes a symbol. The number counts the code words that come before the bits read so far and are not
shorter than these. -/
def decodeSymbol : Code → Nat → List Bool → Option (Nat × List Bool)
  | [], _, _ => none
  | _, _, [] => none
  | row :: more, place, bit :: bits =>
    let place := 2 * place + bit.toNat
    match row[place]? with
    | some symbol => some (symbol, bits)
    | none => decodeSymbol more (place - row.length) bits

/-! ### Symbols -/

/-- The end of a block. -/
def endSymbol : Nat := 256

/-- The lengths of copies, each with the number of bits to add, from symbol 257 on. -/
def copyLengths : List (Nat × Nat) :=
  [(3, 0), (4, 0), (5, 0), (6, 0), (7, 0), (8, 0), (9, 0), (10, 0), (11, 1), (13, 1), (15, 1), (17, 1),
    (19, 2), (23, 2), (27, 2), (31, 2), (35, 3), (43, 3), (51, 3), (59, 3), (67, 4), (83, 4), (99, 4),
    (115, 4), (131, 5), (163, 5), (195, 5), (227, 5), (258, 0)]

/-- The distances of copies, each with the number of bits to add. -/
def copyDistances : List (Nat × Nat) :=
  [(1, 0), (2, 0), (3, 0), (4, 0), (5, 1), (7, 1), (9, 2), (13, 2), (17, 3), (25, 3), (33, 4), (49, 4),
    (65, 5), (97, 5), (129, 6), (193, 6), (257, 7), (385, 7), (513, 8), (769, 8), (1025, 9), (1537, 9),
    (2049, 10), (3073, 10), (4097, 11), (6145, 11), (8193, 12), (12289, 12), (16385, 13), (24577, 13)]

/-- Takes the bits that belong to a row of a table. -/
def takeRow (table : List (Nat × Nat)) (row : Nat) (bits : List Bool) : Option (Nat × List Bool) :=
  match table[row]? with
  | none => none
  | some (base, extra) => (takeBits extra bits).map fun (n, bits) => (base + n, bits)

/-- The output with so many bytes copied one after the other from this distance. What would come before
the output is zero. -/
def copyBack (distance : Nat) : Nat → Array UInt8 → Array UInt8
  | 0, out => out
  | length + 1, out =>
    let byte := if distance ≤ out.size then out.getD (out.size - distance) 0 else 0
    copyBack distance length (out.push byte)

/-- Takes symbols up to the end of a block, at most `limit` of them. -/
def inflateSymbols (literals distances : Code) :
    Nat → Array UInt8 → List Bool → Option (Array UInt8 × List Bool)
  | 0, _, _ => none
  | limit + 1, out, bits => do
    let (symbol, bits) ← decodeSymbol literals 0 bits
    if symbol < endSymbol then inflateSymbols literals distances limit (out.push (UInt8.ofNat symbol)) bits
    else if symbol = endSymbol then some (out, bits)
    else do
      let (length, bits) ← takeRow copyLengths (symbol - endSymbol - 1) bits
      let (row, bits) ← decodeSymbol distances 0 bits
      let (distance, bits) ← takeRow copyDistances row bits
      inflateSymbols literals distances limit (copyBack distance length out) bits

/-! ### Blocks -/

/-- The lengths of the code words for literals and copies in a block without codes of its own. -/
def plainLiterals : List Nat :=
  List.replicate 144 8 ++ List.replicate 112 9 ++ List.replicate 24 7 ++ List.replicate 8 8

/-- The lengths of the code words for distances in a block without codes of its own. -/
def plainDistances : List Nat := List.replicate 30 5

/-- The order in which the lengths for the code of lengths come. -/
def lengthOrder : List Nat := [16, 17, 18, 0, 8, 7, 9, 6, 10, 5, 11, 4, 12, 3, 13, 2, 14, 1, 15]

/-- Takes so many numbers of three bits. -/
def takeTriples : Nat → List Bool → Option (List Nat × List Bool)
  | 0, bits => some ([], bits)
  | n + 1, bits => do
    let (first, bits) ← takeBits 3 bits
    let (more, bits) ← takeTriples n bits
    return (first :: more, bits)

/-- Takes lengths of code words until there are `wanted` of them. -/
def takeLengths (code : Code) (wanted : Nat) :
    Nat → Array Nat → List Bool → Option (List Nat × List Bool)
  | 0, _, _ => none
  | limit + 1, lengths, bits =>
    if lengths.size = wanted then some (lengths.toList, bits)
    else if wanted < lengths.size then none
    else do
      let (symbol, bits) ← decodeSymbol code 0 bits
      if symbol < 16 then takeLengths code wanted limit (lengths.push symbol) bits
      else if symbol = 16 then do
        let last ← lengths.back?
        let (n, bits) ← takeBits 2 bits
        takeLengths code wanted limit (lengths ++ Array.replicate (3 + n) last) bits
      else if symbol = 17 then do
        let (n, bits) ← takeBits 3 bits
        takeLengths code wanted limit (lengths ++ Array.replicate (3 + n) 0) bits
      else do
        let (n, bits) ← takeBits 7 bits
        takeLengths code wanted limit (lengths ++ Array.replicate (11 + n) 0) bits

/-- Takes the codes of a block that has its own. A code has no more symbols than have a meaning: the bytes,
the end and the rows of the tables. -/
def takeCodes (bits : List Bool) : Option (Code × Code × List Bool) := do
  let (moreLiterals, bits) ← takeBits 5 bits
  let (moreDistances, bits) ← takeBits 5 bits
  let (moreLengths, bits) ← takeBits 4 bits
  let (triples, bits) ← takeTriples (moreLengths + 4) bits
  let given := lengthOrder.zip triples
  let lengths := (List.range 19).map fun n => (given.lookup n).getD 0
  let literalCount := moreLiterals + endSymbol + 1
  let distanceCount := moreDistances + 1
  if endSymbol + 1 + copyLengths.length < literalCount ∨ copyDistances.length < distanceCount then none
  else if !isUsable lengths then none
  else do
    let wanted := literalCount + distanceCount
    let (all, bits) ← takeLengths (codeOfLengths lengths) wanted (wanted + 1) #[] bits
    let literals := all.take literalCount
    let distances := all.drop literalCount
    if isUsable literals && isUsable distances then
      return (codeOfLengths literals, codeOfLengths distances, bits)
    else none

/-- Takes so many bytes. -/
def takeBytes : Nat → Array UInt8 → List Bool → Option (Array UInt8 × List Bool)
  | 0, out, bits => some (out, bits)
  | n + 1, out, bits => do
    let (byte, bits) ← takeBits 8 bits
    takeBytes n (out.push (UInt8.ofNat byte)) bits

/-- Takes a stored block. It begins with the next whole byte; as all bits come from bytes, what is left
tells how many bits to skip. -/
def inflateStored (out : Array UInt8) (bits : List Bool) : Option (Array UInt8 × List Bool) := do
  let bits := bits.drop (bits.length % 8)
  let (size, bits) ← takeBits 16 bits
  let (complement, bits) ← takeBits 16 bits
  if size + complement = 0xFFFF then takeBytes size out bits else none

/-- Takes blocks up to the last one, at most `limit` of them. -/
def inflateBlocks : Nat → Array UInt8 → List Bool → Option (Array UInt8)
  | 0, _, _ => none
  | limit + 1, out, bits => do
    let (final, bits) ← takeBits 1 bits
    let (kind, bits) ← takeBits 2 bits
    let (out, bits) ←
      if kind = 0 then inflateStored out bits
      else if kind = 1 then
        inflateSymbols (codeOfLengths plainLiterals) (codeOfLengths plainDistances) (bits.length + 1) out bits
      else if kind = 2 then do
        let (literals, distances, bits) ← takeCodes bits
        inflateSymbols literals distances (bits.length + 1) out bits
      else none
    if final = 1 then some out else inflateBlocks limit out bits

/-- The bytes that compressed bytes stand for; none if these are damaged or end too early. What follows
the last block does not count. -/
def inflate? (bytes : List UInt8) : Option (List UInt8) :=
  let bits := allBits bytes
  (inflateBlocks (bits.length + 1) #[] bits).map Array.toList

/-! ### Laws -/

/-- Every symbol takes a bit. -/
theorem decodeSymbol_length {code : Code} {place symbol : Nat} {bits rest : List Bool}
    (h : decodeSymbol code place bits = some (symbol, rest)) : rest.length < bits.length := by
  induction code generalizing place bits with
  | nil => simp [decodeSymbol] at h
  | cons row more ih =>
    cases bits with
    | nil => simp [decodeSymbol] at h
    | cons bit bits =>
      simp only [decodeSymbol] at h
      split at h
      · simp_all
      · have shorter := ih h
        simp only [List.length_cons]
        omega

theorem ofBits_bitsOf (count n : Nat) : ofBits (bitsOf count n) = n % Nat.pow 2 count := by
  induction count generalizing n with
  | zero => simp [bitsOf, ofBits, Nat.mod_one]
  | succ count ih =>
    have tail : bitsOf (count + 1) n = n.testBit 0 :: bitsOf count (n / 2) := by
      simp [bitsOf, List.range_succ_eq_map, Function.comp_def, Nat.testBit_succ]
    have next : Nat.pow 2 (count + 1) = 2 * Nat.pow 2 count := Nat.mul_comm _ _
    rw [tail, ofBits, ih, Nat.testBit_zero, next, Nat.mod_mul]
    rcases Nat.mod_two_eq_zero_or_one n with even | odd <;> simp [*]

/-- The bits of a number are read back. -/
theorem takeBits_bitsOf (count n : Nat) (rest : List Bool) :
    takeBits count (bitsOf count n ++ rest) = some (n % Nat.pow 2 count, rest) := by
  have size : (bitsOf count n).length = count := by simp [bitsOf]
  simp [takeBits, size, ofBits_bitsOf]

end ApiSurface.Archive
