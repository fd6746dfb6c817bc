import ApiSurface.Archive.Checksum
import ApiSurface.Archive.CodePage
import ApiSurface.Archive.Inflate
import ApiSurface.Text.Utf8

/-!
Archives of files. At the end of an archive is a record that tells where its directory is; the directory
names the entries and tells where each one begins. Numbers have the low byte first. Whatever stands
before the archive shifts all places in it. Of two entries with one name the later one counts. Main
statement: a number is read back (`takeNumber_littleEndian`).
-/

namespace ApiSurface

open ApiSurface.Text

/-- Why bytes are no archive, or an entry is not one that can be read. -/
inductive ArchiveFault where
  | noEndRecord
  | endsEarly
  | severalVolumes
  | badDirectory
  | badLocalHeader
  | badEncryption
  | encrypted
  | unknownCompression
  deriving DecidableEq, Repr

/-- The fault in words. -/
def ArchiveFault.message : ArchiveFault → String
  | .noEndRecord => "no end record"
  | .endsEarly => "the archive ends early"
  | .severalVolumes => "the archive has several volumes"
  | .badDirectory => "damaged directory"
  | .badLocalHeader => "damaged entry"
  | .badEncryption => "unknown encryption"
  | .encrypted => "the entry is encrypted"
  | .unknownCompression => "unknown compression"

/-- Why the contents of an entry are not there. -/
inductive EntryFault where
  | archive (fault : ArchiveFault)
  /-- The compressed bytes are damaged. -/
  | damaged
  | badChecksum
  deriving DecidableEq, Repr

/-- The fault in words. -/
def EntryFault.message : EntryFault → String
  | .archive fault => "Archive error: " ++ fault.message
  | .damaged => "I/O error: corrupt deflate stream"
  | .badChecksum => "I/O error: Invalid checksum"

namespace Archive

/-! ### Numbers -/

/-- The number that bytes spell, the low one first. -/
def littleEndian : List UInt8 → Nat
  | [] => 0
  | b :: more => b.toNat + 0x100 * littleEndian more

/-- The low bytes of a number, the low one first. -/
def toLittleEndian : Nat → Nat → List UInt8
  | 0, _ => []
  | size + 1, n => UInt8.ofNat n :: toLittleEndian size (n / 0x100)

/-- Takes so many bytes. -/
def takeBlock (size : Nat) (bytes : List UInt8) : Except ArchiveFault (List UInt8 × List UInt8) :=
  let front := bytes.take size
  if front.length = size then .ok (front, bytes.drop size) else .error .endsEarly

/-- Takes a number of so many bytes. -/
def takeNumber (size : Nat) (bytes : List UInt8) : Except ArchiveFault (Nat × List UInt8) := do
  let (front, rest) ← takeBlock size bytes
  return (littleEndian front, rest)

/-- Takes numbers of these sizes. -/
def takeNumbers : List Nat → List UInt8 → Except ArchiveFault (List Nat × List UInt8)
  | [], bytes => .ok ([], bytes)
  | size :: more, bytes => do
    let (n, bytes) ← takeNumber size bytes
    let (ns, bytes) ← takeNumbers more bytes
    return (n :: ns, bytes)

/-- A four-byte mark. -/
def mark (n : Nat) : List UInt8 := toLittleEndian 4 n

/-! ### End record -/

/-- What the end record begins with. -/
def endMark : List UInt8 := mark 0x06054B50

/-- The size of the end record without its comment. -/
def endSize : Nat := 22

/-- The last of the first `count` tails of some bytes that begins with the mark. -/
def lastTail? (mark : List UInt8) : Nat → Option (List UInt8) → List UInt8 → Option (List UInt8)
  | 0, found, _ => found
  | count + 1, found, bytes =>
    lastTail? mark count (if mark.isPrefixOf bytes then some bytes else found) (bytes.drop 1)

/-- Where the directory of an archive is. -/
structure DirectoryPlace where
  /-- How much stands before the archive. -/
  shift : Nat
  start : Nat
  count : Nat
  deriving DecidableEq, Repr

/-- The end record. -/
structure EndRecord where
  volume : Nat
  directoryVolume : Nat
  countHere : Nat
  count : Nat
  directorySize : Nat
  directoryStart : Nat
  commentSize : Nat
  deriving DecidableEq, Repr

/-- Whether some number has no room in the record, so that another record holds it. -/
def EndRecord.overflows (r : EndRecord) : Bool :=
  r.volume == 0xFFFF || r.directoryVolume == 0xFFFF || r.countHere == 0xFFFF || r.count == 0xFFFF ||
    r.directorySize == 0xFFFFFFFF || r.directoryStart == 0xFFFFFFFF

/-- Takes an end record with its comment. -/
def takeEndRecord (bytes : List UInt8) : Except ArchiveFault EndRecord := do
  match ← takeNumbers [4, 2, 2, 2, 2, 4, 4, 2] bytes with
  | ([_, volume, directoryVolume, countHere, count, size, start, commentSize], rest) =>
    let _ ← takeBlock commentSize rest
    return ⟨volume, directoryVolume, countHere, count, size, start, commentSize⟩
  | _ => .error .endsEarly

/-- What the locator of a large end record begins with. -/
def locatorMark : List UInt8 := mark 0x07064B50

/-- What a large end record begins with. -/
def largeEndMark : List UInt8 := mark 0x06064B50

/-- The first of at most `count` tails of some bytes that begins with the mark, and how many come before. -/
def firstTail? (mark : List UInt8) : Nat → Nat → List UInt8 → Option (Nat × List UInt8)
  | 0, _, _ => none
  | count + 1, skipped, bytes =>
    if mark.isPrefixOf bytes then some (skipped, bytes)
    else firstTail? mark count (skipped + 1) (bytes.drop 1)

/-- The directory of an archive whose numbers are large. The locator is given, and the place of the end
record. -/
def largeDirectory (bytes : List UInt8) (r : EndRecord) (endPlace : Nat) (locator : List UInt8) :
    Except ArchiveFault DirectoryPlace := do
  match ← takeNumbers [4, 4, 8, 4] locator with
  | ([_, directoryVolume, nominal, _], _) =>
    if !r.overflows && r.volume != directoryVolume then .error .severalVolumes
    else if endPlace < 60 then .error .badDirectory
    else
      match firstTail? largeEndMark (endPlace - 60 + 1 - nominal) 0 (bytes.drop nominal) with
      | none => .error .badDirectory
      | some (shift, record) =>
        match ← takeNumbers [4, 8, 2, 2, 4, 4, 8, 8, 8, 8] record with
        | ([_, _, _, _, volume, directoryVolume, _, count, _, start], _) =>
          if volume != directoryVolume then .error .severalVolumes
          else return ⟨shift, start + shift, count⟩
        | _ => .error .endsEarly
  | _ => .error .endsEarly

/-- The directory of an archive. -/
def findDirectory (bytes : List UInt8) : Except ArchiveFault DirectoryPlace := do
  let total := bytes.length
  if total < endSize then .error .noEndRecord
  else
    let lowest := total - (endSize + 0xFFFF)
    match lastTail? endMark (total - endSize + 1 - lowest) none (bytes.drop lowest) with
    | none => .error .noEndRecord
    | some tail =>
      let r ← takeEndRecord tail
      let endPlace := total - tail.length
      let back := 20 + endSize + r.commentSize
      let locator := bytes.drop (total - back)
      if !r.overflows && r.volume != r.directoryVolume then .error .severalVolumes
      else if back ≤ total ∧ locatorMark.isPrefixOf locator then largeDirectory bytes r endPlace locator
      else if endPlace < r.directorySize + r.directoryStart then .error .badDirectory
      else
        let shift := endPlace - r.directorySize - r.directoryStart
        return ⟨shift, r.directoryStart + shift, r.countHere⟩

/-! ### Directory -/

/-- An entry of an archive. -/
structure Entry where
  name : String
  encrypted : Bool
  compression : Nat
  checksum : UInt32
  compressedSize : Nat
  /-- Where the entry begins in all the bytes. -/
  start : Nat
  deriving DecidableEq, Repr

/-- What an entry of the directory begins with. -/
def entryMark : Nat := 0x02014B50

/-- What the number of a large entry is replaced by. -/
def overflow : Nat := 0xFFFFFFFF

/-- The sizes, the place and the compression of an entry, as far as its extra fields were read. -/
structure EntryPlace where
  size : Nat
  compressedSize : Nat
  start : Nat
  compression : Nat
  isProtected : Bool

/-- Replaces a number that has no room by the next one of eight bytes. -/
def large (n : Nat) (bytes : List UInt8) : Option (Nat × List UInt8) :=
  if n = overflow then (takeNumber 8 bytes).toOption else some (n, bytes)

/-- The compression that stands behind an encryption. -/
def protectedCompression (size : Nat) (bytes : List UInt8) : Except ArchiveFault (Option Nat) :=
  if size ≠ 7 then .error .badEncryption
  else
    match takeNumbers [2, 2, 1, 2] bytes with
    | .ok ([version, vendor, strength, compression], _) =>
      if vendor = 0x4541 ∧ 1 ≤ version ∧ version ≤ 2 ∧ 1 ≤ strength ∧ strength ≤ 3 then
        .ok (some compression)
      else .error .badEncryption
    | _ => .ok none

/-- Reads at most `limit` extra fields; one that ends early ends the reading. Behind the field of an
encryption as many bytes as it has are passed over. -/
def readExtra : Nat → EntryPlace → List UInt8 → Except ArchiveFault EntryPlace
  | 0, place, _ => .ok place
  | limit + 1, place, bytes =>
    match takeNumbers [2, 2] bytes with
    | .ok ([0x0001, size], rest) =>
      match large place.size rest with
      | none => .ok place
      | some (n, left) =>
        let place := { place with size := n }
        match large place.compressedSize left with
        | none => .ok place
        | some (n, left) =>
          let place := { place with compressedSize := n }
          match large place.start left with
          | none => .ok place
          | some (n, left) =>
            let used := rest.length - left.length
            readExtra limit { place with start := n } (left.drop (size - used))
    | .ok ([0x9901, size], rest) =>
      match protectedCompression size rest with
      | .error fault => .error fault
      | .ok none => .ok place
      | .ok (some n) =>
        let place := { place with compression := n, isProtected := true }
        readExtra limit place (rest.drop (size + size))
    | .ok ([_, size], rest) => readExtra limit place (rest.drop size)
    | _ => .ok place

/-- The compression that stands for an encryption. -/
def protectedMethod : Nat := 99

/-- Takes an entry of the directory of an archive that is shifted so much. -/
def takeEntry (shift : Nat) (bytes : List UInt8) : Except ArchiveFault (Entry × List UInt8) := do
  match ← takeNumbers [4] bytes with
  | ([found], bytes) =>
    if found ≠ entryMark then .error .badDirectory
    else
      match ← takeNumbers [2, 2, 2, 2, 2, 2, 4, 4, 4, 2, 2, 2, 2, 2, 4, 4] bytes with
      | ([_, _, flags, compression, _, _, checksum, compressedSize, size, nameSize, extraSize,
          commentSize, _, _, _, start], bytes) =>
        let (name, bytes) ← takeBlock nameSize bytes
        let (extra, bytes) ← takeBlock extraSize bytes
        let (_, bytes) ← takeBlock commentSize bytes
        let name := if flags.testBit 11 then decodeDamaged name else decodeName name
        let place ← readExtra extra.length ⟨size, compressedSize, start, compression, false⟩ extra
        if place.compression = protectedMethod ∧ !place.isProtected then .error .badEncryption
        else
          return (⟨String.ofList name, flags.testBit 0 || place.isProtected, place.compression,
            UInt32.ofNat checksum, place.compressedSize, place.start + shift⟩, bytes)
      | _ => .error .endsEarly
  | _ => .error .endsEarly

/-- Takes so many entries of the directory; of each one something is taken. -/
def takeEntries (shift : Nat) : Nat → Array Entry → List UInt8 → Except ArchiveFault (Array Entry)
  | 0, entries, _ => .ok entries
  | count + 1, entries, bytes =>
    match takeEntry shift bytes with
    | .error fault => .error fault
    | .ok (entry, rest) => takeEntries shift count (entries.push entry) rest

end Archive

/-- An archive, whose entries are listed in the order of its directory. -/
structure Archive where
  bytes : List UInt8
  entries : List Archive.Entry

namespace Archive

/-- The archive that some bytes are. -/
def ofBytes (bytes : List UInt8) : Except ArchiveFault Archive := do
  let place ← findDirectory bytes
  let entries ← takeEntries place.shift place.count #[] (bytes.drop place.start)
  return ⟨bytes, entries.toList⟩

/-- The names of the entries. -/
def names (a : Archive) : List String := a.entries.map (·.name)

/-- The last entry of this name. -/
def entry? (a : Archive) (name : String) : Option Entry := a.entries.reverse.find? (·.name == name)

/-! ### Contents -/

/-- What an entry itself begins with. -/
def localMark : Nat := 0x04034B50

/-- The bytes of an entry as they are stored. They may be fewer than the directory says. -/
def storedBytes (a : Archive) (e : Entry) : Except ArchiveFault (List UInt8) := do
  match ← takeNumbers [4] (a.bytes.drop e.start) with
  | ([found], bytes) =>
    if found ≠ localMark then .error .badLocalHeader
    else
      match ← takeNumbers [2, 2] (bytes.drop 22) with
      | ([nameSize, extraSize], bytes) =>
        return (bytes.drop (nameSize + extraSize)).take e.compressedSize
      | _ => .error .endsEarly
  | _ => .error .endsEarly

/-- The bytes that stored bytes stand for. -/
def decompress (compression : Nat) (stored : List UInt8) : Option (List UInt8) :=
  if compression = 0 then some stored else inflate? stored

/-- The contents of an entry. -/
def contents (a : Archive) (e : Entry) : Except EntryFault (List UInt8) :=
  if e.encrypted then .error (.archive .encrypted)
  else
    match a.storedBytes e with
    | .error fault => .error (.archive fault)
    | .ok stored =>
      if e.compression ≠ 0 ∧ e.compression ≠ 8 then .error (.archive .unknownCompression)
      else
        match decompress e.compression stored with
        | none => .error .damaged
        | some bytes => if checksum bytes = e.checksum then .ok bytes else .error .badChecksum

/-- The contents of the last entry of this name, if there is one. -/
def read (a : Archive) (name : String) : Except EntryFault (Option (List UInt8)) :=
  match a.entry? name with
  | none => .ok none
  | some e => (a.contents e).map some

/-! ### Laws -/

theorem length_toLittleEndian (size n : Nat) : (toLittleEndian size n).length = size := by
  induction size generalizing n with
  | zero => rfl
  | succ size ih => simp [toLittleEndian, ih]

theorem littleEndian_toLittleEndian (size n : Nat) :
    littleEndian (toLittleEndian size n) = n % Nat.pow 0x100 size := by
  induction size generalizing n with
  | zero => simp [toLittleEndian, littleEndian, Nat.mod_one]
  | succ size ih =>
    have next : Nat.pow 0x100 (size + 1) = 0x100 * Nat.pow 0x100 size := Nat.mul_comm _ _
    rw [toLittleEndian, littleEndian, ih, next, Nat.mod_mul]
    simp

/-- A number is read back. -/
theorem takeNumber_littleEndian {size n : Nat} (small : n < Nat.pow 0x100 size) (rest : List UInt8) :
    takeNumber size (toLittleEndian size n ++ rest) = .ok (n, rest) := by
  have whole : takeBlock size (toLittleEndian size n ++ rest) = .ok (toLittleEndian size n, rest) := by
    simp [takeBlock, length_toLittleEndian]
  simp only [takeNumber, whole, bind, Except.bind, littleEndian_toLittleEndian,
    Nat.mod_eq_of_lt small]
  rfl

end Archive

end ApiSurface
