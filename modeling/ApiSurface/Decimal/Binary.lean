/-!
Binary floating-point formats. A finite value is `m · 2 ^ q` with a sign; every finite value of the
single format is one of the double format.
-/

namespace ApiSurface.Decimal

/-- A binary interchange format: how many bits hold the fraction and how many the exponent. -/
structure BinaryFormat where
  fractionBits : Nat
  exponentBits : Nat
  deriving DecidableEq, Repr

namespace BinaryFormat

/-- The 32-bit format. -/
def single : BinaryFormat := ⟨23, 8⟩

/-- The 64-bit format. -/
def double : BinaryFormat := ⟨52, 11⟩

/-- The exponent of the last place of the smallest numbers. -/
def lowestExponent (f : BinaryFormat) : Int :=
  2 - (Nat.pow 2 (f.exponentBits - 1) : Nat) - f.fractionBits

end BinaryFormat

/-- What a bit pattern stands for. -/
inductive BinaryValue where
  | notANumber
  | infinite (negative : Bool)
  /-- `± significand · 2 ^ exponent`. -/
  | finite (negative : Bool) (significand : Nat) (exponent : Int)
  deriving DecidableEq, Repr

namespace BinaryValue

/-- The value with this bit pattern. -/
def ofBits (f : BinaryFormat) (bits : Nat) : BinaryValue :=
  let fraction := bits % Nat.pow 2 f.fractionBits
  let exponent := bits / Nat.pow 2 f.fractionBits % Nat.pow 2 f.exponentBits
  let negative := bits / Nat.pow 2 (f.fractionBits + f.exponentBits) % 2 = 1
  if exponent = Nat.pow 2 f.exponentBits - 1 then
    if fraction = 0 then .infinite negative else .notANumber
  else if exponent = 0 then .finite negative fraction f.lowestExponent
  else .finite negative (Nat.pow 2 f.fractionBits + fraction) (f.lowestExponent + (exponent - 1 : Nat))

/-- Whether the value is a whole number. -/
def isIntegral : BinaryValue → Bool
  | .finite _ m q => q ≥ 0 || m % Nat.pow 2 q.natAbs = 0
  | _ => false

/-- The same value with as many significant bits as the format has, where its exponents allow. -/
def normalized (f : BinaryFormat) : BinaryValue → BinaryValue
  | .finite negative m q =>
    if m = 0 then .finite negative 0 f.lowestExponent
    else
      let shift := min (f.fractionBits - m.log2) (q - f.lowestExponent).toNat
      .finite negative (m * Nat.pow 2 shift) (q - shift)
  | v => v

end BinaryValue

end ApiSurface.Decimal
