/-!
The checksum of archive entries: the remainder of the bytes, seen as a polynomial over two elements with
the low bit of every byte first. Main statement: the checksum of a text continues that of its beginning
(`remainder_append`).
-/

namespace ApiSurface.Archive

/-- The divisor, low bit first, without its highest power. -/
def divisor : UInt32 := 0xEDB88320

/-- The remainder after one more bit, which was added to the lowest one. -/
def stepBit (r : UInt32) : UInt32 := if r &&& 1 = 1 then (r >>> 1) ^^^ divisor else r >>> 1

/-- The remainder after so many more bits. -/
def stepBits : Nat → UInt32 → UInt32
  | 0, r => r
  | n + 1, r => stepBits n (stepBit r)

/-- The remainder after one more byte. -/
def stepByte (r : UInt32) (b : UInt8) : UInt32 := stepBits 8 (r ^^^ b.toUInt32)

/-- The remainder after more bytes. -/
def remainder (r : UInt32) (bytes : List UInt8) : UInt32 := bytes.foldl stepByte r

/-- The checksum of some bytes. -/
def checksum (bytes : List UInt8) : UInt32 := remainder 0xFFFFFFFF bytes ^^^ 0xFFFFFFFF

theorem remainder_append (r : UInt32) (a b : List UInt8) :
    remainder r (a ++ b) = remainder (remainder r a) b := by
  simp [remainder]

/-- The check value that goes with the algorithm. -/
example : checksum "123456789".toUTF8.data.toList = 0xCBF43926 := by decide +kernel

end ApiSurface.Archive
