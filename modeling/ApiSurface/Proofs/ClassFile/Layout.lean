import ApiSurface.ClassFile.Elements
import ApiSurface.ClassFile.Pool
import ApiSurface.ClassFile.Tables

/-!
The layout of class files as a whole. A pool is written entry by entry, so the index of an entry is one more
than the number of indices that the entries before it take (`entry_ofEntries_eq_ok_iff`), and an index that
belongs to no entry stands for nothing. Main statement: a class file is read back from its bytes and so is what
the bodies of its attributes hold, whatever follows, and in the pool that was read every entry stands at its
index and nowhere else (`layout_read_back`).
-/

namespace ApiSurface.ClassFile

/-! ### Decoders and encoders -/

section ReadsBack

variable {α : Type} {decoder : Decoder α} {encode : α → List UInt8} {Fits : α → Prop}

/-- What fits is read back from its bytes, and what follows them is left. -/
def ReadsBack (decoder : Decoder α) (encode : α → List UInt8) (Fits : α → Prop) : Prop :=
  ∀ a, Fits a → ∀ rest, decoder (encode a ++ rest) = .ok (a, rest)

/-- Whether all of some items fit, and their number fits into two bytes. -/
def ManyFit (Fits : α → Prop) (items : List α) : Prop := items.length < 0x10000 ∧ ∀ a ∈ items, Fits a

/-- Items after their number are read back if each of them is. -/
theorem ReadsBack.counted (each : ReadsBack decoder encode Fits) :
    ReadsBack (counted decoder) (encodeCounted encode) (ManyFit Fits) := by
  intro items fit rest
  exact counted_encode fit.1 (fun a mem => each a (fit.2 a mem)) rest

end ReadsBack

/-- The bytes of the annotations of every parameter, after the number of parameters in one byte. -/
def encodeParameterUses (uses : List (List UseEntry)) : List UInt8 :=
  encode8 (UInt8.ofNat uses.length) ++ uses.flatMap (encodeCounted encodeUse)

/-- Whether the number of parameters fits into one byte and all annotations fit. -/
def ParameterUsesFit (uses : List (List UseEntry)) : Prop :=
  uses.length < 0x100 ∧ ∀ own ∈ uses, ManyFit UseFits own

theorem decodeParameterUses_encode :
    ReadsBack decodeParameterUses encodeParameterUses ParameterUsesFit := by
  intro uses fit rest
  have own : ReadsBack (counted decodeUse) (encodeCounted encodeUse) (ManyFit UseFits) :=
    ReadsBack.counted fun use fits => decodeUse_encode fits
  rw [encodeParameterUses, List.append_assoc, decodeParameterUses, bind_of_ok (u8_encode _ _),
    UInt8.toNat_ofNat_of_lt' fit.1, times_encode fun a mem => own a (fit.2 a mem)]

/-! ### Places in a pool -/

namespace PoolEntry

/-- What stands at the indices of an entry. -/
def slots (e : PoolEntry) : Pool := if e.isWide then [some e, none] else [some e]

/-- The number of indices of an entry. -/
def width (e : PoolEntry) : Nat := if e.isWide then 2 else 1

theorem length_slots (e : PoolEntry) : e.slots.length = e.width := by
  unfold slots width
  split <;> rfl

end PoolEntry

namespace Pool

/-- The pool of some entries in their order. -/
def ofEntries (entries : List PoolEntry) : Pool := entries.flatMap PoolEntry.slots

/-- The number of indices that some entries take. -/
def widths : List PoolEntry → Nat
  | [] => 0
  | e :: more => e.width + widths more

/-- Entries one after the other fit if each of them does. -/
theorem slotsFit_ofEntries_iff {entries : List PoolEntry} :
    SlotsFit false (ofEntries entries) ↔ ∀ e ∈ entries, e.Fits := by
  induction entries with
  | nil => simp [ofEntries, SlotsFit]
  | cons e more ih =>
    rw [List.forall_mem_cons, ← ih]
    cases wide : e.isWide <;> simp [ofEntries, PoolEntry.slots, SlotsFit, wide]

/-- Only entries one after the other fit. -/
theorem exists_ofEntries {slots : Pool} {second : Bool} (fit : SlotsFit second slots) :
    ∃ entries, slots = (if second then [none] else []) ++ ofEntries entries := by
  induction slots generalizing second with
  | nil =>
    obtain rfl : second = false := fit
    exact ⟨[], rfl⟩
  | cons slot more ih =>
    cases second with
    | true =>
      obtain ⟨rfl, fit⟩ := fit
      obtain ⟨entries, rfl⟩ := ih fit
      exact ⟨entries, rfl⟩
    | false =>
      obtain ⟨e, rfl, -, fit⟩ := fit
      obtain ⟨entries, rfl⟩ := ih fit
      refine ⟨e :: entries, ?_⟩
      cases wide : e.isWide <;> simp [ofEntries, PoolEntry.slots, wide]

/-- Place by place, the first index of an entry is behind those of the entries before it. -/
theorem getElem?_ofEntries_eq_some_iff {entries : List PoolEntry} {e : PoolEntry} {place : Nat} :
    (ofEntries entries)[place]? = some (some e) ↔
      ∃ before after, entries = before ++ e :: after ∧ place = widths before := by
  induction entries generalizing place with
  | nil => simp [ofEntries]
  | cons first more ih =>
    have shape : ofEntries (first :: more) = first.slots ++ ofEntries more := rfl
    rw [shape]
    constructor
    · intro here
      by_cases own : place < first.slots.length
      · -- of the indices of the first entry only its own one holds an entry
        obtain ⟨rfl, rfl⟩ : place = 0 ∧ first = e := by
          rw [List.getElem?_append_left own] at here
          unfold PoolEntry.slots at here
          split at here
          · rcases place with _ | _ | place <;> simp_all
          · rcases place with _ | place <;> simp_all
        exact ⟨[], more, rfl, rfl⟩
      · rw [List.getElem?_append_right (by omega)] at here
        obtain ⟨before, after, rfl, behind⟩ := ih.1 here
        refine ⟨first :: before, after, rfl, ?_⟩
        rw [PoolEntry.length_slots] at own behind
        rw [widths]
        omega
    · rintro ⟨before, after, whole, rfl⟩
      cases before with
      | nil =>
        obtain ⟨rfl, rfl⟩ := List.cons_eq_cons.1 whole
        unfold PoolEntry.slots
        split <;> rfl
      | cons other before =>
        obtain ⟨rfl, rfl⟩ := List.cons_eq_cons.1 whole
        have behind : widths (first :: before) = first.slots.length + widths before := by
          rw [widths, PoolEntry.length_slots]
        rw [behind, List.getElem?_append_right (by omega), Nat.add_sub_cancel_left]
        exact ih.2 ⟨before, after, rfl, rfl⟩

/-- The entry of an index is the one before which the entries take one index less than that. -/
theorem entry_ofEntries_eq_ok_iff {entries : List PoolEntry} {e : PoolEntry} {index : UInt16} :
    (ofEntries entries).entry index = .ok e ↔
      ∃ before after, entries = before ++ e :: after ∧ index.toNat = widths before + 1 := by
  unfold Pool.entry
  split
  · rename_i zero
    simp [zero]
  · rename_i place shape
    have behind (n : Nat) : index.toNat = n + 1 ↔ place = n := by omega
    simp only [behind]
    rw [← getElem?_ofEntries_eq_some_iff]
    split
    · rename_i entry found
      simp [found]
    · rename_i none
      simpa using none e

/-- An index at which no entry stands is a bad one. -/
theorem entry_eq_error_iff {pool : Pool} {index : UInt16} :
    pool.entry index = .error (.badIndex index) ↔ ∀ e, pool.entry index ≠ .ok e := by
  unfold Pool.entry
  split
  · simp
  · split <;> simp

end Pool

/-! ### Class files -/

instance : DecidablePred Attribute.Fits := fun _ => inferInstanceAs (Decidable (_ < _))

/-- **The layout is read back.** Of every class file that has room in the layout the decoder gives back the class
file and leaves what follows. Its pool consists of entries, each of which stands at its index; an index of which
this is true of no entry, such as the second one of a wide entry, is a bad one. What the bodies of attributes hold,
which are values nested in any way, annotations, annotations of parameters and of types, nested classes and
modules, is read back as well. -/
theorem layout_read_back {c : ClassFile} (fits : c.Fits) (rest : List UInt8) :
    decode (c.encode ++ rest) = .ok (c, rest) ∧
    (∃ entries, c.pool = .ofEntries entries ∧ (∀ e ∈ entries, e.Fits) ∧
      (∀ e index, c.pool.entry index = .ok e ↔
        ∃ before after, entries = before ++ e :: after ∧ index.toNat = Pool.widths before + 1) ∧
      ∀ index, c.pool.entry index = .error (.badIndex index) ↔ ∀ e, c.pool.entry index ≠ .ok e) ∧
    ReadsBack decodeElement encodeElement ElementFits ∧
    ReadsBack (counted decodeUse) (encodeCounted encodeUse) (ManyFit UseFits) ∧
    ReadsBack decodeParameterUses encodeParameterUses ParameterUsesFit ∧
    ReadsBack (counted PlacedUse.decode) (encodeCounted PlacedUse.encode) (ManyFit PlacedUse.Fits) ∧
    ReadsBack (counted NestedRow.decode) (encodeCounted NestedRow.encode) (ManyFit fun _ => True) ∧
    ReadsBack ModuleTable.decode ModuleTable.encode ModuleTable.Fits := by
  obtain ⟨entries, pool⟩ := Pool.exists_ofEntries fits.pool.2
  have whole : c.pool = .ofEntries entries := by simpa using pool
  refine ⟨decode_encode fits rest, ⟨entries, whole, ?_, fun e index => ?_, fun index => Pool.entry_eq_error_iff⟩,
    fun value fit => decodeElement_encode fit, ?_, decodeParameterUses_encode, ?_, ?_,
    fun table fit => ModuleTable.decode_encode fit⟩
  · exact Pool.slotsFit_ofEntries_iff.1 (whole ▸ fits.pool.2)
  · rw [whole]
    exact Pool.entry_ofEntries_eq_ok_iff
  · exact ReadsBack.counted fun use fit => decodeUse_encode fit
  · exact ReadsBack.counted fun use fit => PlacedUse.decode_encode fit
  · exact ReadsBack.counted fun row _ => row.decode_encode

/-- A class file with a number of 64 bits in its pool between a text and a class, with a field of three attributes
and one interface. -/
def ofLong : ClassFile where
  minor := 0
  major := 52
  pool := [some (.text [0x61]), some (.long 7), none, some (.classRef 1), some (.other 12 [0, 1, 0, 1])]
  flags := 0x21
  thisClass := 4
  superclass := 0
  interfaces := [4]
  fields := [⟨1, 1, 1, [⟨1, []⟩, ⟨1, [0, 2]⟩, ⟨9, [1, 2, 3]⟩]⟩]
  methods := []
  attributes := [⟨1, [0]⟩]

theorem fits_ofLong : ofLong.Fits := by
  have slots : ofLong.pool =
      .ofEntries [.text [0x61], .long 7, .classRef 1, .other 12 [0, 1, 0, 1]] := by decide
  refine ⟨⟨by decide, ?_⟩, by decide, ⟨by decide, ?_⟩, ⟨by decide, nofun⟩, by decide, by decide⟩
  · rw [slots, Pool.slotsFit_ofEntries_iff]
    intro e mem
    simp only [List.mem_cons, List.not_mem_nil, or_false] at mem
    rcases mem with rfl | rfl | rfl | rfl
    · exact (by decide : [(0x61 : UInt8)].length < 0x10000)
    · trivial
    · trivial
    · exact (by decide : otherSize? 12 = some 4)
  · intro m mem
    obtain rfl := List.mem_singleton.1 mem
    exact ⟨by decide, by decide⟩

/-- The class behind the number has the index four; its bytes are read back in front of two others. -/
theorem layout_read_back_ofLong :
    ofLong.Fits ∧ decode (ofLong.encode ++ [1, 2]) = .ok (ofLong, [1, 2]) ∧
      ofLong.pool.entry 4 = .ok (.classRef 1) ∧ ofLong.pool.entry 3 = .error (.badIndex 3) := by
  obtain ⟨read, -⟩ := layout_read_back fits_ofLong [1, 2]
  exact ⟨fits_ofLong, read, rfl, rfl⟩

end ApiSurface.ClassFile
