import ApiSurface.Proofs.ClassFile.Described
import ApiSurface.Proofs.ClassFile.Layout

/-!
Bytes that are cut off and bytes that follow. A decoder takes bytes from the front one after the other, so what it
finds does not depend on what follows, and where some of the bytes that it takes are missing it finds nothing
(`Framed`). This is kept by sequences and repetitions of decoders. Values of annotations, whose depth is bounded by
the number of bytes, have it because they are only read from their own bytes (`readsOnly_decodeElement`). Main
statement: no part of a class file, or of the body of an attribute, can be taken for a whole one, and it does not
matter what follows the whole one (`parse_truncated`).
-/

namespace ApiSurface.ClassFile

/-! ### Decoders and the bytes that they take -/

section Framed

variable {α β : Type} {decoder : Decoder α}

/-- What a decoder does with the bytes of this value: it finds the value in front of everything, and of the first
ones of these bytes alone it finds nothing. -/
structure Takes (decoder : Decoder α) (taken : List UInt8) (a : α) : Prop where
  whole : ∀ rest, decoder (taken ++ rest) = .ok (a, rest)
  part : ∀ front, front <+: taken → front ≠ taken → ∃ fault, decoder front = .error fault

/-- For every value that is found, some bytes are taken. -/
def Framed (decoder : Decoder α) : Prop :=
  ∀ bytes a rest, decoder bytes = .ok (a, rest) → ∃ taken, bytes = taken ++ rest ∧ Takes decoder taken a

/-- A value is found only in its own bytes. -/
def ReadsOnly (decoder : Decoder α) (encode : α → List UInt8) (Fits : α → Prop) : Prop :=
  ∀ bytes a rest, decoder bytes = .ok (a, rest) → Fits a ∧ bytes = encode a ++ rest

theorem bind_eq_ok {f : α → Decoder β} {bytes rest : List UInt8} {b : β} (h : (decoder >>= f) bytes = .ok (b, rest)) :
    ∃ a mid, decoder bytes = .ok (a, mid) ∧ f a mid = .ok (b, rest) := by
  obtain ⟨⟨a, mid⟩, first, later⟩ := bind_eq_ok_iff.1 h
  exact ⟨a, mid, first, later⟩

theorem bind_of_error {f : α → Decoder β} {bytes : List UInt8} {fault : LayoutFault}
    (h : decoder bytes = .error fault) : (decoder >>= f) bytes = .error fault := by
  simp only [bind, StateT.bind, h, Except.bind]

/-- Some of the bytes of two parts are some of the first part, or all of it and some of the second. -/
theorem cases_of_proper_prefix {front first second : List UInt8} (part : front <+: first ++ second)
    (fewer : front ≠ first ++ second) :
    front <+: first ∧ front ≠ first ∨ ∃ more, front = first ++ more ∧ more <+: second ∧ more ≠ second := by
  obtain ⟨missing, whole⟩ := part
  rcases List.append_eq_append_iff.1 whole with ⟨more, rfl, -⟩ | ⟨more, rfl, rfl⟩
  · by_cases all : more = []
    · subst all
      rw [List.append_nil] at fewer ⊢
      exact .inr ⟨[], by simp, List.nil_prefix, by simpa [eq_comm] using fewer⟩
    · exact .inl ⟨List.prefix_append .., by simpa [eq_comm] using all⟩
  · exact .inr ⟨more, rfl, List.prefix_append .., by simpa using fewer⟩

theorem Takes.bind {f : α → Decoder β} {taken later : List UInt8} {a : α} {b : β} (first : Takes decoder taken a)
    (second : Takes (f a) later b) : Takes (decoder >>= f) (taken ++ later) b := by
  constructor
  · intro rest
    rw [List.append_assoc, bind_of_ok (first.whole _), second.whole]
  · intro front part fewer
    rcases cases_of_proper_prefix part fewer with ⟨part, fewer⟩ | ⟨more, rfl, part, fewer⟩
    · obtain ⟨fault, failed⟩ := first.part front part fewer
      exact ⟨fault, bind_of_error failed⟩
    · obtain ⟨fault, failed⟩ := second.part more part fewer
      exact ⟨fault, by rw [bind_of_ok (first.whole _), failed]⟩

namespace Framed

theorem pure (a : α) : Framed (pure a : Decoder α) := by
  intro bytes b rest h
  obtain ⟨rfl, rfl⟩ := Prod.mk.inj (Except.ok.inj h)
  exact ⟨[], rfl, fun rest => rfl, fun front part fewer => absurd (List.prefix_nil.1 part) fewer⟩

theorem bind {f : α → Decoder β} (first : Framed decoder) (next : ∀ a, Framed (f a)) : Framed (decoder >>= f) := by
  intro bytes b rest h
  obtain ⟨a, mid, found, later⟩ := bind_eq_ok h
  obtain ⟨taken, rfl, takes⟩ := first _ _ _ found
  obtain ⟨more, rfl, takes'⟩ := next a _ _ _ later
  exact ⟨taken ++ more, by rw [List.append_assoc], takes.bind takes'⟩

theorem ite {p : Prop} [Decidable p] {other : Decoder α} (yes : Framed decoder) (no : Framed other) :
    Framed (if p then decoder else other) := by
  split
  · exact yes
  · exact no

/-- What finds nothing takes nothing. -/
theorem refuseTag : Framed (refuseTag : Decoder α) := fun _ _ _ h => nomatch h

theorem block (size : Nat) : Framed (block size) := by
  intro bytes a rest h
  by_cases enough : (bytes.take size).length = size
  · rw [ClassFile.block, if_pos enough] at h
    obtain ⟨rfl, rfl⟩ := Prod.mk.inj (Except.ok.inj h)
    refine ⟨bytes.take size, (List.take_append_drop size bytes).symm, fun rest => ?_, fun front part fewer => ?_⟩
    · have whole := block_append (bytes.take size) rest
      rwa [enough] at whole
    · -- the first ones of so many bytes are fewer
      have short : front.length < size := by
        have shorter := part.length_le
        rcases Nat.lt_or_eq_of_le shorter with less | same
        · omega
        · exact absurd (part.eq_of_length same) fewer
      exact ⟨.tooShort front.length, if_neg (by rw [List.length_take]; omega)⟩
  · rw [ClassFile.block, if_neg enough] at h
    cases h

theorem natural (size : Nat) : Framed (natural size) := (block size).bind fun _ => .pure _

theorem u8 : Framed u8 := (natural 1).bind fun _ => .pure _

theorem u16 : Framed u16 := (natural 2).bind fun _ => .pure _

theorem u32 : Framed u32 := (natural 4).bind fun _ => .pure _

theorem u64 : Framed u64 := (natural 8).bind fun _ => .pure _

theorem times (item : Framed decoder) (n : Nat) : Framed (times decoder n) := by
  induction n with
  | zero => exact .pure _
  | succ n ih => exact item.bind fun _ => ih.bind fun _ => .pure _

theorem counted (item : Framed decoder) : Framed (counted decoder) := u16.bind fun _ => item.times _

/-- A decoder that reads back what was encoded, and nothing else, takes what was encoded. -/
theorem of_readsOnly {encode : α → List UInt8} {Fits : α → Prop} (back : ReadsBack decoder encode Fits)
    (only : ReadsOnly decoder encode Fits) : Framed decoder := by
  intro bytes a rest h
  obtain ⟨fits, rfl⟩ := only _ _ _ h
  refine ⟨encode a, rfl, back a fits, fun front part fewer => ?_⟩
  cases found : decoder front with
  | error fault => exact ⟨fault, rfl⟩
  | ok result =>
    -- a value in the first bytes would be the one in all of them, and take as many
    obtain ⟨b, left⟩ := result
    obtain ⟨fits', rfl⟩ := only _ _ _ found
    obtain ⟨missing, whole⟩ := part
    rw [List.append_assoc] at whole
    have all := back a fits []
    rw [List.append_nil, ← whole, back b fits' (left ++ missing)] at all
    obtain ⟨rfl, none⟩ := Prod.mk.inj (Except.ok.inj all)
    obtain ⟨rfl, -⟩ := List.append_eq_nil_iff.1 none
    exact absurd (List.append_nil _) fewer

end Framed
end Framed

/-! ### Numbers and values of annotations are read only from their own bytes -/

theorem toBigEndian_bigEndian (bytes : List UInt8) : toBigEndian bytes.length (bigEndian bytes) = bytes := by
  induction bytes using List.reverseRecOn with
  | nil => rfl
  | append_singleton bytes b ih =>
    have next : bigEndian (bytes ++ [b]) = bigEndian bytes * 0x100 + b.toNat := by simp [bigEndian]
    have high : (bigEndian bytes * 0x100 + b.toNat) / 0x100 = bigEndian bytes := by
      have small := b.toNat_lt
      omega
    have low : UInt8.ofNat (bigEndian bytes * 0x100 + b.toNat) = b := by
      apply UInt8.toNat_inj.1
      have small := b.toNat_lt
      rw [UInt8.toNat_ofNat']
      omega
    rw [List.length_append, List.length_singleton, toBigEndian, next, high, low, ih]

theorem bigEndian_lt (bytes : List UInt8) : bigEndian bytes < Nat.pow 0x100 bytes.length :=
  calc bigEndian bytes
      = bigEndian bytes % Nat.pow 0x100 bytes.length := by rw [← bigEndian_toBigEndian, toBigEndian_bigEndian]
    _ < Nat.pow 0x100 bytes.length := Nat.mod_lt _ (Nat.pow_pos (by decide))

/-- A number is read from its own bytes. -/
theorem of_natural {size n : Nat} {bytes rest : List UInt8} (h : natural size bytes = .ok (n, rest)) :
    n < Nat.pow 0x100 size ∧ bytes = toBigEndian size n ++ rest := by
  obtain ⟨front, mid, taken, ends⟩ := bind_eq_ok h
  obtain ⟨rfl, rfl⟩ := Prod.mk.inj (Except.ok.inj ends)
  by_cases enough : (bytes.take size).length = size
  · rw [block, if_pos enough] at taken
    obtain ⟨rfl, rfl⟩ := Prod.mk.inj (Except.ok.inj taken)
    have small := bigEndian_lt (bytes.take size)
    have same := toBigEndian_bigEndian (bytes.take size)
    rw [enough] at small same
    exact ⟨small, by rw [same, List.take_append_drop]⟩
  · rw [block, if_neg enough] at taken
    cases taken

theorem of_u8 {n : UInt8} {bytes rest : List UInt8} (h : u8 bytes = .ok (n, rest)) : bytes = n :: rest := by
  obtain ⟨m, mid, found, ends⟩ := bind_eq_ok h
  obtain ⟨rfl, rfl⟩ := Prod.mk.inj (Except.ok.inj ends)
  exact (of_natural found).2

theorem of_u16 {n : UInt16} {bytes rest : List UInt8} (h : u16 bytes = .ok (n, rest)) :
    bytes = encode16 n ++ rest := by
  obtain ⟨m, mid, found, ends⟩ := bind_eq_ok h
  obtain ⟨rfl, rfl⟩ := Prod.mk.inj (Except.ok.inj ends)
  obtain ⟨small, whole⟩ := of_natural found
  rw [encode16, UInt16.toNat_ofNat_of_lt' small, whole]

section ReadsOnly

variable {α : Type} {item : Decoder α} {encode : α → List UInt8} {Fits : α → Prop}

theorem ReadsOnly.times (each : ReadsOnly item encode Fits) {n : Nat} {bytes rest : List UInt8} {items : List α}
    (h : times item n bytes = .ok (items, rest)) :
    items.length = n ∧ (∀ a ∈ items, Fits a) ∧ bytes = items.flatMap encode ++ rest := by
  induction n generalizing bytes items with
  | zero =>
    obtain ⟨rfl, rfl⟩ := Prod.mk.inj (Except.ok.inj h)
    exact ⟨rfl, by simp, rfl⟩
  | succ n ih =>
    obtain ⟨a, mid, first, h⟩ := bind_eq_ok h
    obtain ⟨more, mid', later, ends⟩ := bind_eq_ok h
    obtain ⟨rfl, rfl⟩ := Prod.mk.inj (Except.ok.inj ends)
    obtain ⟨fits, rfl⟩ := each _ _ _ first
    obtain ⟨rfl, fit, rfl⟩ := ih later
    exact ⟨rfl, List.forall_mem_cons.2 ⟨fits, fit⟩, by simp⟩

/-- Items after their number are only read from that and their own bytes. -/
theorem ReadsOnly.counted (each : ReadsOnly item encode Fits) :
    ReadsOnly (counted item) (encodeCounted encode) (ManyFit Fits) := by
  intro bytes items rest h
  obtain ⟨n, mid, number, h⟩ := bind_eq_ok h
  obtain ⟨length, fit, rfl⟩ := each.times h
  obtain rfl := of_u16 number
  have small : items.length < 0x10000 := length ▸ n.toNat_lt
  exact ⟨⟨small, fit⟩, by simp [encodeCounted, encode16, length]⟩

end ReadsOnly

theorem encodeElements_eq_flatMap (items : List ElementEntry) : encodeElements items = items.flatMap encodeElement := by
  induction items with
  | nil => rfl
  | cons a more ih => rw [encodeElements, ih, List.flatMap_cons]

theorem elementsFit_iff {items : List ElementEntry} : ElementsFit items ↔ ∀ a ∈ items, ElementFits a := by
  induction items with
  | nil => simp [ElementsFit]
  | cons a more ih => rw [ElementsFit, ih, List.forall_mem_cons]

/-- The bytes of an element name and a value. -/
def encodePair (pair : UInt16 × ElementEntry) : List UInt8 := encode16 pair.1 ++ encodeElement pair.2

theorem encodePairs_eq_flatMap (pairs : List (UInt16 × ElementEntry)) : encodePairs pairs = pairs.flatMap encodePair := by
  induction pairs with
  | nil => rfl
  | cons a more ih => rw [encodePairs, ih, List.flatMap_cons, encodePair]

theorem pairsFit_iff {pairs : List (UInt16 × ElementEntry)} : PairsFit pairs ↔ ∀ a ∈ pairs, ElementFits a.2 := by
  induction pairs with
  | nil => simp [PairsFit]
  | cons a more ih => rw [PairsFit, ih, List.forall_mem_cons]

/-- An annotation is only read from its own bytes if its values are. -/
theorem ReadsOnly.useWith {value : Decoder ElementEntry} (each : ReadsOnly value encodeElement ElementFits) :
    ReadsOnly (decodeUseWith value) encodeUse UseFits := by
  have pair : ReadsOnly (decodePair value) encodePair fun a => ElementFits a.2 := by
    intro bytes a rest h
    obtain ⟨name, mid, first, h⟩ := bind_eq_ok h
    obtain ⟨v, mid', found, ends⟩ := bind_eq_ok h
    obtain ⟨rfl, rfl⟩ := Prod.mk.inj (Except.ok.inj ends)
    obtain ⟨fits, rfl⟩ := each _ _ _ found
    exact ⟨fits, by rw [of_u16 first, encodePair, List.append_assoc]⟩
  intro bytes use rest h
  obtain ⟨type, mid, first, h⟩ := bind_eq_ok h
  obtain ⟨pairs, mid', found, ends⟩ := bind_eq_ok h
  obtain ⟨rfl, rfl⟩ := Prod.mk.inj (Except.ok.inj ends)
  obtain ⟨⟨few, fit⟩, rfl⟩ := pair.counted _ _ _ found
  refine ⟨⟨few, pairsFit_iff.2 fit⟩, ?_⟩
  rw [of_u16 first, encodeUse, encodePairs_eq_flatMap, encodeCounted]
  simp

/-- Values of any depth are only read from their own bytes. -/
theorem readsOnly_decodeElementWithin (depth : Nat) :
    ReadsOnly (decodeElementWithin depth) encodeElement ElementFits := by
  induction depth with
  | zero => exact fun bytes a rest h => nomatch h
  | succ depth ih =>
    intro bytes value rest h
    obtain ⟨tag, mid, first, found⟩ := bind_eq_ok h
    obtain rfl := of_u8 first
    split at found
    · rename_i known
      obtain ⟨index, mid, number, ends⟩ := bind_eq_ok found
      obtain ⟨rfl, rfl⟩ := Prod.mk.inj (Except.ok.inj ends)
      exact ⟨known, by rw [of_u16 number, encodeElement, List.cons_append]⟩
    split at found
    · rename_i isEnum
      obtain ⟨type, mid, number, found⟩ := bind_eq_ok found
      obtain ⟨name, mid, number', ends⟩ := bind_eq_ok found
      obtain ⟨rfl, rfl⟩ := Prod.mk.inj (Except.ok.inj ends)
      exact ⟨trivial, by simp [of_u16 number, of_u16 number', encodeElement, isEnum]⟩
    split at found
    · rename_i isClass
      obtain ⟨type, mid, number, ends⟩ := bind_eq_ok found
      obtain ⟨rfl, rfl⟩ := Prod.mk.inj (Except.ok.inj ends)
      exact ⟨trivial, by simp [of_u16 number, encodeElement, isClass]⟩
    split at found
    · rename_i isUse
      obtain ⟨use, mid, read, ends⟩ := bind_eq_ok found
      obtain ⟨rfl, rfl⟩ := Prod.mk.inj (Except.ok.inj ends)
      obtain ⟨fits, rfl⟩ := ih.useWith _ _ _ read
      exact ⟨fits, by simp [encodeElement, isUse]⟩
    split at found
    · rename_i isArray
      obtain ⟨items, mid, read, ends⟩ := bind_eq_ok found
      obtain ⟨rfl, rfl⟩ := Prod.mk.inj (Except.ok.inj ends)
      obtain ⟨⟨few, fit⟩, rfl⟩ := ih.counted _ _ _ read
      exact ⟨⟨few, elementsFit_iff.2 fit⟩,
        by simp [encodeElement, encodeCounted, encodeElements_eq_flatMap, isArray]⟩
    · cases found

theorem Framed.element : Framed decodeElement :=
  .of_readsOnly (fun _ fits => decodeElement_encode fits) fun bytes => readsOnly_decodeElementWithin bytes.length bytes

theorem Framed.use : Framed decodeUse :=
  .of_readsOnly (fun _ fits => decodeUse_encode fits) fun bytes =>
    (readsOnly_decodeElementWithin bytes.length).useWith bytes

/-! ### The parts of a class file -/

namespace Framed

theorem poolEntry : Framed PoolEntry.decode := by
  refine u8.bind fun tag => ?_
  refine .ite (u16.bind fun _ => (block _).bind fun _ => .pure _) ?_
  refine .ite (u32.bind fun _ => .pure _) (.ite (u32.bind fun _ => .pure _) ?_)
  refine .ite (u64.bind fun _ => .pure _) (.ite (u64.bind fun _ => .pure _) ?_)
  refine .ite (u16.bind fun _ => .pure _) (.ite (u16.bind fun _ => .pure _) ?_)
  refine .ite (u16.bind fun _ => .pure _) (.ite (u16.bind fun _ => .pure _) ?_)
  cases otherSize? tag with
  | none => exact .refuseTag
  | some size => exact (block size).bind fun _ => .pure _

theorem slots (n : Nat) (second : Bool) : Framed (decodeSlots n second) := by
  induction n generalizing second with
  | zero => exact .pure _
  | succ n ih =>
    cases second with
    | true => exact (ih false).bind fun _ => .pure _
    | false => exact poolEntry.bind fun entry => (ih entry.isWide).bind fun _ => .pure _

theorem pool : Framed decodePool := u16.bind fun _ => slots _ _

theorem namedBody : Framed Attribute.decode := u16.bind fun _ => u32.bind fun _ => (block _).bind fun _ => .pure _

theorem member : Framed MemberEntry.decode :=
  u16.bind fun _ => u16.bind fun _ => u16.bind fun _ => namedBody.counted.bind fun _ => .pure _

/-- The layout of a class file takes its bytes one after the other. -/
theorem classFile : Framed decode :=
  (block 4).bind fun _ => u16.bind fun _ => u16.bind fun _ => pool.bind fun _ => u16.bind fun _ => u16.bind fun _ =>
    u16.bind fun _ => u16.counted.bind fun _ => member.counted.bind fun _ => member.counted.bind fun _ =>
      namedBody.counted.bind fun _ => .pure _

theorem nestedRow : Framed NestedRow.decode :=
  u16.bind fun _ => u16.bind fun _ => u16.bind fun _ => u16.bind fun _ => .pure _

theorem requiresRow : Framed RequiresRow.decode := u16.bind fun _ => u16.bind fun _ => u16.bind fun _ => .pure _

theorem exportsRow : Framed ExportsRow.decode := u16.bind fun _ => u16.bind fun _ => u16.counted.bind fun _ => .pure _

theorem providesRow : Framed ProvidesRow.decode := u16.bind fun _ => u16.counted.bind fun _ => .pure _

theorem moduleTable : Framed ModuleTable.decode :=
  u16.bind fun _ => u16.bind fun _ => u16.bind fun _ => requiresRow.counted.bind fun _ =>
    exportsRow.counted.bind fun _ => exportsRow.counted.bind fun _ => u16.counted.bind fun _ =>
      providesRow.counted.bind fun _ => .pure _

theorem parameterUses : Framed decodeParameterUses := u8.bind fun _ => use.counted.times _

theorem targetDetail (target : UInt8) : Framed (decodeTargetDetail target) := by
  refine .ite (u8.bind fun _ => .pure _) (.ite (u16.bind fun _ => .pure _) ?_)
  refine .ite (u8.bind fun _ => u8.bind fun _ => .pure _) (.ite (.pure _) ?_)
  exact .ite (u8.bind fun _ => .pure _) .refuseTag

theorem placedUse : Framed PlacedUse.decode :=
  u8.bind fun target => (targetDetail target).bind fun _ => u8.bind fun _ =>
    (times (u8.bind fun _ => u8.bind fun _ => .pure _) _).bind fun _ => use.bind fun _ => .pure _

end Framed

/-! ### Class files and bodies -/

/-- Of a body that is one value, no part is a value, and whatever follows it, the value is the same. -/
def ToldWhole {α : Type} (decoder : Decoder α) : Prop :=
  ∀ name body value, decoder body = .ok (value, []) →
    (∀ front, front <+: body → front ≠ body → ∃ fault, Attribute.read ⟨name, front⟩ decoder = .error (.layout fault)) ∧
    ∀ rest, Attribute.read ⟨name, body ++ rest⟩ decoder = .ok value

theorem Framed.toldWhole {α : Type} {decoder : Decoder α} (framed : Framed decoder) : ToldWhole decoder := by
  intro name body value h
  obtain ⟨taken, whole, takes⟩ := framed _ _ _ h
  rw [List.append_nil] at whole
  subst whole
  refine ⟨fun front part fewer => ?_, fun rest => ?_⟩
  · obtain ⟨fault, failed⟩ := takes.part front part fewer
    exact ⟨fault, by simp only [Attribute.read, failed]⟩
  · simp only [Attribute.read, takes.whole]

/-- **Truncation is detected, and what follows does not matter.** Of the bytes of a class file that describes a class
or module, no first ones describe anything, and with any bytes behind them they describe the same. The same is true
of all that bodies of attributes hold: values, annotations of elements, of parameters and of types, nested classes,
modules, indices and lists of them. -/
theorem parse_truncated {bytes : List UInt8} {c : ClassFile} {d : ClassDescription}
    (consumed : decode bytes = .ok (c, [])) (parsed : parse bytes = .ok d) :
    (∀ front, front <+: bytes → front ≠ bytes →
      parse front = .error ⟨none, .badMagic⟩ ∨ ∃ fault, parse front = .error ⟨none, .layout fault⟩) ∧
    (∀ rest, parse (bytes ++ rest) = .ok d) ∧
    ToldWhole decodeElement ∧ ToldWhole (counted decodeUse) ∧ ToldWhole decodeParameterUses ∧
    ToldWhole (counted PlacedUse.decode) ∧ ToldWhole (counted NestedRow.decode) ∧ ToldWhole ModuleTable.decode ∧
    ToldWhole u16 ∧ ToldWhole (counted u16) := by
  obtain ⟨taken, whole, takes⟩ := Framed.classFile _ _ _ consumed
  rw [List.append_nil] at whole
  subst whole
  have marked : magic.isPrefixOf bytes = true := by
    by_contra other
    rw [Bool.not_eq_true] at other
    simp [parse, other] at parsed
  refine ⟨fun front part fewer => ?_, fun rest => ?_, Framed.element.toldWhole, Framed.use.counted.toldWhole,
    Framed.parameterUses.toldWhole, Framed.placedUse.counted.toldWhole, Framed.nestedRow.counted.toldWhole,
    Framed.moduleTable.toldWhole, Framed.u16.toldWhole, Framed.u16.counted.toldWhole⟩
  · obtain ⟨fault, failed⟩ := takes.part front part fewer
    unfold parse
    split
    · exact .inl rfl
    · exact .inr ⟨fault, by rw [failed]⟩
  · have front : magic.isPrefixOf (bytes ++ rest) := by
      rw [List.isPrefixOf_iff_prefix] at marked ⊢
      exact marked.trans (List.prefix_append _ _)
    have alone := takes.whole []
    rw [List.append_nil] at alone
    rw [← parsed]
    simp only [parse, marked, front, alone, takes.whole rest]

/-- The class file of `a.B` with an annotation that holds an array of a number of 64 bits and another annotation. -/
def markedFile : ClassFile :=
  let text (s : String) : Option PoolEntry := some (.text (s.toList.flatMap String.utf8EncodeChar))
  { minor := 0
    major := 52
    pool := [text "a/B", some (.classRef 1), some (.long 7), none, text "RuntimeVisibleAnnotations", text "La/N;",
      text "v"]
    flags := 0x21
    thisClass := 2
    superclass := 0
    interfaces := []
    fields := []
    methods := []
    attributes := [⟨5, encodeCounted encodeUse [⟨6, [(7, .array [.constant 0x4A 3, .nested ⟨6, []⟩])]⟩]⟩] }

/-- Without its last byte the file describes nothing, and with another byte behind it what it described. -/
theorem parse_truncated_markedFile : ∃ d, decode markedFile.encode = .ok (markedFile, []) ∧
    parse markedFile.encode = .ok d ∧ d.annotations.length = 1 ∧
    (∃ bad, parse markedFile.encode.dropLast = .error bad) ∧ parse (markedFile.encode ++ [0xCA]) = .ok d := by
  have consumed : decode markedFile.encode = .ok (markedFile, []) := rfl
  have described : (parse markedFile.encode).toOption.map (·.annotations.length) = some 1 := by decide +kernel
  obtain ⟨d, found, uses⟩ := Option.map_eq_some_iff.1 described
  have parsed := toOption_eq_some_iff.1 found
  obtain ⟨part, behind, -⟩ := parse_truncated consumed parsed
  refine ⟨d, consumed, parsed, uses, ?_, behind [0xCA]⟩
  rcases part _ (List.dropLast_prefix _) (by decide +kernel) with failed | ⟨fault, failed⟩
  · exact ⟨_, failed⟩
  · exact ⟨_, failed⟩

end ApiSurface.ClassFile
