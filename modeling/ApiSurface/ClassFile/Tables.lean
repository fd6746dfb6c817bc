import ApiSurface.ClassFile.Bytes

/-!
The layout of two tables that a class file may hold: the nested classes that it speaks of, and what a
module needs and offers. All numbers but flags are indices of the pool. Main statements: the bytes of a
row and of a module table are read back (`NestedRow.decode_encode`, `ModuleTable.decode_encode`).
-/

namespace ApiSurface.ClassFile

/-- A nested class. -/
structure NestedRow where
  nested : UInt16
  /-- The class around it; zero for a class that is no member. -/
  outer : UInt16
  /-- The simple name; zero for a class without one. -/
  simpleName : UInt16
  flags : UInt16
  deriving DecidableEq, Repr

/-- A module that is needed. -/
structure RequiresRow where
  name : UInt16
  flags : UInt16
  version : UInt16
  deriving DecidableEq, Repr

/-- A package that is exported or opened, and to whom. -/
structure ExportsRow where
  package : UInt16
  flags : UInt16
  targets : List UInt16
  deriving DecidableEq, Repr

/-- A service that is provided, and by which classes. -/
structure ProvidesRow where
  service : UInt16
  providers : List UInt16
  deriving DecidableEq, Repr

/-- What the class file of a module says about it. -/
structure ModuleTable where
  name : UInt16
  flags : UInt16
  /-- Zero if there is none. -/
  version : UInt16
  requires : List RequiresRow
  exports : List ExportsRow
  opens : List ExportsRow
  uses : List UInt16
  provides : List ProvidesRow
  deriving DecidableEq, Repr

/-! ### Decoding -/

/-- A nested class. -/
def NestedRow.decode : Decoder NestedRow := do
  let nested ← u16
  let outer ← u16
  let simpleName ← u16
  return ⟨nested, outer, simpleName, ← u16⟩

/-- A module that is needed. -/
def RequiresRow.decode : Decoder RequiresRow := do
  let name ← u16
  let flags ← u16
  return ⟨name, flags, ← u16⟩

/-- A package that is exported or opened. -/
def ExportsRow.decode : Decoder ExportsRow := do
  let package ← u16
  let flags ← u16
  return ⟨package, flags, ← counted u16⟩

/-- A service that is provided. -/
def ProvidesRow.decode : Decoder ProvidesRow := do
  let service ← u16
  return ⟨service, ← counted u16⟩

/-- The table of a module. -/
def ModuleTable.decode : Decoder ModuleTable := do
  let name ← u16
  let flags ← u16
  let version ← u16
  let requires ← counted RequiresRow.decode
  let exports ← counted ExportsRow.decode
  let opens ← counted ExportsRow.decode
  let uses ← counted u16
  return ⟨name, flags, version, requires, exports, opens, uses, ← counted ProvidesRow.decode⟩

/-! ### Encoding -/

/-- The bytes of a nested class. -/
def NestedRow.encode (r : NestedRow) : List UInt8 :=
  encode16 r.nested ++ encode16 r.outer ++ encode16 r.simpleName ++ encode16 r.flags

/-- The bytes of a module that is needed. -/
def RequiresRow.encode (r : RequiresRow) : List UInt8 :=
  encode16 r.name ++ encode16 r.flags ++ encode16 r.version

/-- The bytes of a package that is exported or opened. -/
def ExportsRow.encode (r : ExportsRow) : List UInt8 :=
  encode16 r.package ++ encode16 r.flags ++ encodeCounted encode16 r.targets

/-- The bytes of a service that is provided. -/
def ProvidesRow.encode (r : ProvidesRow) : List UInt8 :=
  encode16 r.service ++ encodeCounted encode16 r.providers

/-- The bytes of the table of a module. -/
def ModuleTable.encode (t : ModuleTable) : List UInt8 :=
  encode16 t.name ++ encode16 t.flags ++ encode16 t.version ++
    encodeCounted RequiresRow.encode t.requires ++ encodeCounted ExportsRow.encode t.exports ++
    encodeCounted ExportsRow.encode t.opens ++ encodeCounted encode16 t.uses ++
    encodeCounted ProvidesRow.encode t.provides

/-! ### What fits into the layout -/

/-- Whether the targets of a package have a number. -/
def ExportsRow.Fits (r : ExportsRow) : Prop := r.targets.length < 0x10000

/-- Whether the providers of a service have a number. -/
def ProvidesRow.Fits (r : ProvidesRow) : Prop := r.providers.length < 0x10000

/-- Whether all rows of a table have a number. -/
structure ModuleTable.Fits (t : ModuleTable) : Prop where
  requires : t.requires.length < 0x10000
  exports : t.exports.length < 0x10000 ∧ ∀ r ∈ t.exports, r.Fits
  opens : t.opens.length < 0x10000 ∧ ∀ r ∈ t.opens, r.Fits
  uses : t.uses.length < 0x10000
  provides : t.provides.length < 0x10000 ∧ ∀ r ∈ t.provides, r.Fits

/-! ### Laws -/

/-- The bytes of a nested class are read back. -/
theorem NestedRow.decode_encode (r : NestedRow) (rest : List UInt8) :
    NestedRow.decode (r.encode ++ rest) = .ok (r, rest) := by
  simp only [NestedRow.encode, List.append_assoc, NestedRow.decode]
  rw [bind_of_ok (u16_encode _ _), bind_of_ok (u16_encode _ _), bind_of_ok (u16_encode _ _),
    bind_of_ok (u16_encode _ _)]
  rfl

theorem RequiresRow.decode_encode (r : RequiresRow) (rest : List UInt8) :
    RequiresRow.decode (r.encode ++ rest) = .ok (r, rest) := by
  simp only [RequiresRow.encode, List.append_assoc, RequiresRow.decode]
  rw [bind_of_ok (u16_encode _ _), bind_of_ok (u16_encode _ _), bind_of_ok (u16_encode _ _)]
  rfl

theorem counted_indices {indices : List UInt16} (few : indices.length < 0x10000) (rest : List UInt8) :
    counted u16 (encodeCounted encode16 indices ++ rest) = .ok (indices, rest) :=
  counted_encode few (fun n _ => u16_encode n) rest

theorem ExportsRow.decode_encode {r : ExportsRow} (fits : r.Fits) (rest : List UInt8) :
    ExportsRow.decode (r.encode ++ rest) = .ok (r, rest) := by
  simp only [ExportsRow.encode, List.append_assoc, ExportsRow.decode]
  rw [bind_of_ok (u16_encode _ _), bind_of_ok (u16_encode _ _), bind_of_ok (counted_indices fits _)]
  rfl

theorem ProvidesRow.decode_encode {r : ProvidesRow} (fits : r.Fits) (rest : List UInt8) :
    ProvidesRow.decode (r.encode ++ rest) = .ok (r, rest) := by
  simp only [ProvidesRow.encode, List.append_assoc, ProvidesRow.decode]
  rw [bind_of_ok (u16_encode _ _), bind_of_ok (counted_indices fits _)]
  rfl

/-- The bytes of the table of a module are read back. -/
theorem ModuleTable.decode_encode {t : ModuleTable} (fits : t.Fits) (rest : List UInt8) :
    ModuleTable.decode (t.encode ++ rest) = .ok (t, rest) := by
  simp only [ModuleTable.encode, List.append_assoc, ModuleTable.decode]
  rw [bind_of_ok (u16_encode _ _), bind_of_ok (u16_encode _ _), bind_of_ok (u16_encode _ _),
    bind_of_ok (counted_encode fits.requires (fun r _ => r.decode_encode) _),
    bind_of_ok (counted_encode fits.exports.1 (fun r mem => ExportsRow.decode_encode (fits.exports.2 r mem)) _),
    bind_of_ok (counted_encode fits.opens.1 (fun r mem => ExportsRow.decode_encode (fits.opens.2 r mem)) _),
    bind_of_ok (counted_indices fits.uses _),
    bind_of_ok (counted_encode fits.provides.1
      (fun r mem => ProvidesRow.decode_encode (fits.provides.2 r mem)) _)]
  rfl

end ApiSurface.ClassFile
