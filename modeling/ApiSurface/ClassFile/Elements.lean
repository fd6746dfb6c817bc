import ApiSurface.ClassFile.Bytes

/-!
The layout of annotations in class files: pairs of an element name and a value, where values hold arrays
and annotations in turn, and before a type annotation its place in the type. Main statements: the bytes
of an annotation and of a type annotation are read back (`decodeUse_encode`, `PlacedUse.decode_encode`).
-/

namespace ApiSurface.ClassFile

/-- An annotation whose values are such. All numbers are indices of the pool. -/
structure UseEntryOf (ε : Type) where
  type : UInt16
  pairs : List (UInt16 × ε)
  deriving Repr

/-- A value of an element. -/
inductive ElementEntry where
  /-- A number, a truth value, a character or a string, as the tag says. -/
  | constant (tag : UInt8) (index : UInt16)
  | enumConstant (type name : UInt16)
  | classLiteral (type : UInt16)
  | nested (use : UseEntryOf ElementEntry)
  | array (items : List ElementEntry)
  deriving Repr

/-- An annotation. -/
abbrev UseEntry := UseEntryOf ElementEntry

/-- The tags of constants: the letters of primitive types, and `s` for strings. -/
def constantTags : List UInt8 := "BCDFIJSZs".toList.map fun c => UInt8.ofNat c.toNat

/-- The tag of an enum constant, the letter `e`. -/
def enumTag : UInt8 := 0x65

/-- The tag of a class, the letter `c`. -/
def classTag : UInt8 := 0x63

/-- The tag of an annotation, an at sign. -/
def nestedTag : UInt8 := 0x40

/-- The tag of an array, an opening bracket. -/
def arrayTag : UInt8 := 0x5B

/-- What the target of a type annotation says about the place. -/
inductive TargetDetail where
  | typeParameter (index : UInt8)
  /-- A super type or an exception. -/
  | typeIndex (index : UInt16)
  | bound (parameter bound : UInt8)
  | whole
  | formalParameter (index : UInt8)
  deriving DecidableEq, Repr

/-- A type annotation. -/
structure PlacedUse where
  target : UInt8
  detail : TargetDetail
  /-- Steps from the outermost type inwards, each a kind and an argument. -/
  path : List (UInt8 × UInt8)
  use : UseEntry
  deriving Repr

/-! ### Decoding -/

/-- An element name and a value. -/
def decodePair (value : Decoder ElementEntry) : Decoder (UInt16 × ElementEntry) := do
  let name ← u16
  return (name, ← value)

/-- An annotation with such values. -/
def decodeUseWith (value : Decoder ElementEntry) : Decoder UseEntry := do
  let type ← u16
  return ⟨type, ← counted (decodePair value)⟩

/-- A value that is nested no deeper than this. A value has a byte at least, so that nothing is left when
the depth is that of the number of bytes. -/
def decodeElementWithin : Nat → Decoder ElementEntry
  | 0 => fun bytes => .error (.tooShort bytes.length)
  | depth + 1 => do
    let tag ← u8
    if tag ∈ constantTags then return .constant tag (← u16)
    else if tag = enumTag then do
      let type ← u16
      return .enumConstant type (← u16)
    else if tag = classTag then return .classLiteral (← u16)
    else if tag = nestedTag then return .nested (← decodeUseWith (decodeElementWithin depth))
    else if tag = arrayTag then return .array (← counted (decodeElementWithin depth))
    else refuseTag

/-- A value. -/
def decodeElement : Decoder ElementEntry := fun bytes => decodeElementWithin bytes.length bytes

/-- An annotation. -/
def decodeUse : Decoder UseEntry := fun bytes => decodeUseWith (decodeElementWithin bytes.length) bytes

/-- The annotations of every parameter, after their number in one byte. -/
def decodeParameterUses : Decoder (List (List UseEntry)) := do
  times (counted decodeUse) (← u8).toNat

/-- What a target of this kind says about the place. -/
def decodeTargetDetail (target : UInt8) : Decoder TargetDetail := do
  if target = 0x00 ∨ target = 0x01 then return .typeParameter (← u8)
  else if target = 0x10 ∨ target = 0x17 then return .typeIndex (← u16)
  else if target = 0x11 ∨ target = 0x12 then do
    let parameter ← u8
    return .bound parameter (← u8)
  else if target = 0x13 ∨ target = 0x14 ∨ target = 0x15 then return .whole
  else if target = 0x16 then return .formalParameter (← u8)
  else refuseTag

/-- A step of a path. -/
def decodeStep : Decoder (UInt8 × UInt8) := do
  let kind ← u8
  return (kind, ← u8)

/-- A type annotation. -/
def PlacedUse.decode : Decoder PlacedUse := do
  let target ← u8
  let detail ← decodeTargetDetail target
  let path ← times decodeStep (← u8).toNat
  return ⟨target, detail, path, ← decodeUse⟩

/-! ### Encoding -/

mutual

/-- The bytes of a value. -/
def encodeElement : ElementEntry → List UInt8
  | .constant tag index => tag :: encode16 index
  | .enumConstant type name => enumTag :: encode16 type ++ encode16 name
  | .classLiteral type => classTag :: encode16 type
  | .nested use => nestedTag :: encodeUse use
  | .array items => arrayTag :: toBigEndian 2 items.length ++ encodeElements items

/-- The bytes of an annotation. -/
def encodeUse : UseEntryOf ElementEntry → List UInt8
  | ⟨type, pairs⟩ => encode16 type ++ (toBigEndian 2 pairs.length ++ encodePairs pairs)

/-- The bytes of pairs in a row. -/
def encodePairs : List (UInt16 × ElementEntry) → List UInt8
  | [] => []
  | (name, value) :: more => encode16 name ++ encodeElement value ++ encodePairs more

/-- The bytes of values in a row. -/
def encodeElements : List ElementEntry → List UInt8
  | [] => []
  | value :: more => encodeElement value ++ encodeElements more

end

/-- The bytes of what a target says about the place. -/
def TargetDetail.encode : TargetDetail → List UInt8
  | .typeParameter index => encode8 index
  | .typeIndex index => encode16 index
  | .bound parameter place => encode8 parameter ++ encode8 place
  | .whole => []
  | .formalParameter index => encode8 index

/-- The bytes of a step of a path. -/
def encodeStep (step : UInt8 × UInt8) : List UInt8 := encode8 step.1 ++ encode8 step.2

/-- The bytes of a type annotation. -/
def PlacedUse.encode (p : PlacedUse) : List UInt8 :=
  encode8 p.target ++ p.detail.encode ++ encode8 (UInt8.ofNat p.path.length) ++ p.path.flatMap encodeStep ++
    encodeUse p.use

/-! ### What fits into the layout -/

mutual

/-- Whether tags are known and arrays and annotations have numbers of items. -/
def ElementFits : ElementEntry → Prop
  | .constant tag _ => tag ∈ constantTags
  | .enumConstant .. | .classLiteral _ => True
  | .nested use => UseFits use
  | .array items => items.length < 0x10000 ∧ ElementsFit items

/-- Whether the values of an annotation fit. -/
def UseFits : UseEntryOf ElementEntry → Prop
  | ⟨_, pairs⟩ => pairs.length < 0x10000 ∧ PairsFit pairs

/-- Whether all values of some pairs fit. -/
def PairsFit : List (UInt16 × ElementEntry) → Prop
  | [] => True
  | (_, value) :: more => ElementFits value ∧ PairsFit more

/-- Whether all values fit. -/
def ElementsFit : List ElementEntry → Prop
  | [] => True
  | value :: more => ElementFits value ∧ ElementsFit more

end

/-- Whether this is what a target of this kind says. -/
def TargetDetail.Fits (target : UInt8) : TargetDetail → Prop
  | .typeParameter _ => target = 0x00 ∨ target = 0x01
  | .typeIndex _ => target = 0x10 ∨ target = 0x17
  | .bound .. => target = 0x11 ∨ target = 0x12
  | .whole => target = 0x13 ∨ target = 0x14 ∨ target = 0x15
  | .formalParameter _ => target = 0x16

/-- Whether a type annotation fits into the layout. -/
structure PlacedUse.Fits (p : PlacedUse) : Prop where
  detail : p.detail.Fits p.target
  path : p.path.length < 0x100
  use : UseFits p.use

/-! ### Laws -/

mutual

theorem decodeElementWithin_encode {value : ElementEntry} (fits : ElementFits value) {depth : Nat}
    (deep : (encodeElement value).length ≤ depth) (rest : List UInt8) :
    decodeElementWithin depth (encodeElement value ++ rest) = .ok (value, rest) := by
  cases depth with
  | zero => cases value <;> simp [encodeElement] at deep
  | succ depth =>
    match value with
    | .constant tag index =>
      have known : tag ∈ constantTags := fits
      simp only [encodeElement, List.cons_append, decodeElementWithin]
      rw [bind_of_ok (u8_cons tag _), if_pos known, bind_of_ok (u16_encode _ _)]
      rfl
    | .enumConstant type name =>
      simp only [encodeElement, List.cons_append, List.append_assoc, decodeElementWithin]
      rw [bind_of_ok (u8_cons enumTag _), if_neg (by decide), if_pos rfl,
        bind_of_ok (u16_encode _ _), bind_of_ok (u16_encode _ _)]
      rfl
    | .classLiteral type =>
      simp only [encodeElement, List.cons_append, decodeElementWithin]
      rw [bind_of_ok (u8_cons classTag _), if_neg (by decide), if_neg (by decide), if_pos rfl,
        bind_of_ok (u16_encode _ _)]
      rfl
    | .nested use =>
      simp only [encodeElement, List.length_cons] at deep
      have inner := decodeUseWith_encode fits (Nat.le_of_succ_le_succ deep) rest
      simp only [encodeElement, List.cons_append, decodeElementWithin]
      rw [bind_of_ok (u8_cons nestedTag _), if_neg (by decide), if_neg (by decide),
        if_neg (by decide), if_pos rfl, bind_of_ok inner]
      rfl
    | .array items =>
      simp only [encodeElement, List.length_cons, List.length_append, length_toBigEndian] at deep
      have inner := times_elements_encode fits.2
        (show (encodeElements items).length ≤ depth by omega) rest
      simp only [encodeElement, List.cons_append, List.append_assoc, decodeElementWithin]
      rw [bind_of_ok (u8_cons arrayTag _), if_neg (by decide), if_neg (by decide),
        if_neg (by decide), if_neg (by decide), if_pos rfl]
      have all : counted (decodeElementWithin depth)
          (toBigEndian 2 items.length ++ (encodeElements items ++ rest)) = .ok (items, rest) := by
        rw [counted, bind_of_ok (u16_toBigEndian fits.1 _), UInt16.toNat_ofNat_of_lt' fits.1, inner]
      rw [bind_of_ok all]
      rfl

theorem decodeUseWith_encode {use : UseEntryOf ElementEntry} (fits : UseFits use) {depth : Nat}
    (deep : (encodeUse use).length ≤ depth) (rest : List UInt8) :
    decodeUseWith (decodeElementWithin depth) (encodeUse use ++ rest) = .ok (use, rest) := by
  match use with
  | ⟨type, pairs⟩ =>
    simp only [encodeUse, List.length_append, length_toBigEndian] at deep
    have inner := times_pairs_encode fits.2
      (show (encodePairs pairs).length ≤ depth by omega) rest
    have all : counted (decodePair (decodeElementWithin depth))
        (toBigEndian 2 pairs.length ++ (encodePairs pairs ++ rest)) = .ok (pairs, rest) := by
      rw [counted, bind_of_ok (u16_toBigEndian fits.1 _), UInt16.toNat_ofNat_of_lt' fits.1, inner]
    simp only [encodeUse, List.append_assoc, decodeUseWith]
    rw [bind_of_ok (u16_encode _ _), bind_of_ok all]
    rfl

theorem times_pairs_encode {pairs : List (UInt16 × ElementEntry)} (fit : PairsFit pairs) {depth : Nat}
    (deep : (encodePairs pairs).length ≤ depth) (rest : List UInt8) :
    times (decodePair (decodeElementWithin depth)) pairs.length (encodePairs pairs ++ rest) =
      .ok (pairs, rest) := by
  match pairs with
  | [] => rfl
  | (name, value) :: more =>
    simp only [encodePairs, List.length_append] at deep
    have first := decodeElementWithin_encode fit.1
      (show (encodeElement value).length ≤ depth by omega)
      (encodePairs more ++ rest)
    have others := times_pairs_encode fit.2
      (show (encodePairs more).length ≤ depth by omega) rest
    have pair : decodePair (decodeElementWithin depth)
        (encode16 name ++ (encodeElement value ++ (encodePairs more ++ rest))) =
        .ok ((name, value), encodePairs more ++ rest) := by
      rw [decodePair, bind_of_ok (u16_encode _ _), bind_of_ok first]
      rfl
    simp only [encodePairs, List.append_assoc, List.length_cons, times]
    rw [bind_of_ok pair, bind_of_ok others]
    rfl

theorem times_elements_encode {items : List ElementEntry} (fit : ElementsFit items) {depth : Nat}
    (deep : (encodeElements items).length ≤ depth) (rest : List UInt8) :
    times (decodeElementWithin depth) items.length (encodeElements items ++ rest) = .ok (items, rest) := by
  match items with
  | [] => rfl
  | value :: more =>
    simp only [encodeElements, List.length_append] at deep
    have first := decodeElementWithin_encode fit.1
      (show (encodeElement value).length ≤ depth by omega)
      (encodeElements more ++ rest)
    have others := times_elements_encode fit.2
      (show (encodeElements more).length ≤ depth by omega) rest
    simp only [encodeElements, List.append_assoc, List.length_cons, times]
    rw [bind_of_ok first, bind_of_ok others]
    rfl

end

/-- The bytes of a value are read back. -/
theorem decodeElement_encode {value : ElementEntry} (fits : ElementFits value) (rest : List UInt8) :
    decodeElement (encodeElement value ++ rest) = .ok (value, rest) :=
  decodeElementWithin_encode fits (by simp) rest

/-- The bytes of an annotation are read back. -/
theorem decodeUse_encode {use : UseEntry} (fits : UseFits use) (rest : List UInt8) :
    decodeUse (encodeUse use ++ rest) = .ok (use, rest) :=
  decodeUseWith_encode fits (by simp) rest

theorem decodeTargetDetail_encode {target : UInt8} {detail : TargetDetail} (fits : detail.Fits target)
    (rest : List UInt8) : decodeTargetDetail target (detail.encode ++ rest) = .ok (detail, rest) := by
  cases detail with
  | typeParameter index =>
    have fits : target = 0x00 ∨ target = 0x01 := fits
    simp only [TargetDetail.encode, decodeTargetDetail]
    rw [if_pos fits, bind_of_ok (u8_encode _ _)]
    rfl
  | typeIndex index =>
    have fits : target = 0x10 ∨ target = 0x17 := fits
    have apart : ¬(target = 0x00 ∨ target = 0x01) := by rcases fits with rfl | rfl <;> decide
    simp only [TargetDetail.encode, decodeTargetDetail]
    rw [if_neg apart, if_pos fits, bind_of_ok (u16_encode _ _)]
    rfl
  | bound parameter place =>
    have fits : target = 0x11 ∨ target = 0x12 := fits
    have apart : ¬(target = 0x00 ∨ target = 0x01) ∧ ¬(target = 0x10 ∨ target = 0x17) := by
      rcases fits with rfl | rfl <;> decide
    simp only [TargetDetail.encode, List.append_assoc, decodeTargetDetail]
    rw [if_neg apart.1, if_neg apart.2, if_pos fits, bind_of_ok (u8_encode _ _),
      bind_of_ok (u8_encode _ _)]
    rfl
  | whole =>
    rcases fits with rfl | rfl | rfl <;> rfl
  | formalParameter index =>
    obtain rfl : target = 0x16 := fits
    simp only [TargetDetail.encode, decodeTargetDetail]
    simp +decide only [if_false, if_true]
    rw [bind_of_ok (u8_encode _ _)]
    rfl

theorem decodeStep_encode (step : UInt8 × UInt8) (rest : List UInt8) :
    decodeStep (encodeStep step ++ rest) = .ok (step, rest) := by
  simp only [encodeStep, List.append_assoc, decodeStep]
  rw [bind_of_ok (u8_encode _ _), bind_of_ok (u8_encode _ _)]
  rfl

/-- The bytes of a type annotation are read back. -/
theorem PlacedUse.decode_encode {p : PlacedUse} (fits : p.Fits) (rest : List UInt8) :
    PlacedUse.decode (p.encode ++ rest) = .ok (p, rest) := by
  simp only [PlacedUse.encode, List.append_assoc, PlacedUse.decode]
  rw [bind_of_ok (u8_encode _ _), bind_of_ok (decodeTargetDetail_encode fits.detail _),
    bind_of_ok (u8_encode _ _), UInt8.toNat_ofNat_of_lt' fits.path,
    bind_of_ok (times_encode (fun step _ => decodeStep_encode step) _),
    bind_of_ok (decodeUse_encode fits.use _)]
  rfl

end ApiSurface.ClassFile
