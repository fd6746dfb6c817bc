import ApiSurface.Decimal.Binary

/-!
The fewest decimal digits that read back as a binary value. A decimal reads back as `m · 2 ^ q` when it
lies between the midpoints to the two neighbouring values; a midpoint itself reads back when `m` is
even. Grids of decimals are tried from coarse to fine, and on each grid the two points around the value;
of two points that both read back the nearer is taken, the greater one if both are equally near. Main
statement: the digits that are chosen read back (`accepts_of_firstGrid?`).
-/

namespace ApiSurface.Decimal

/-- The decimals that read back as one value: all as fractions over one denominator. -/
structure Rounding where
  value : Nat
  low : Nat
  high : Nat
  denominator : Nat
  /-- Whether the ends belong to the interval. -/
  closed : Bool
  deriving DecidableEq, Repr

namespace Rounding

/-- The interval around `m · 2 ^ q`. Below a power of two the next value is half as far away. -/
def ofBinary (f : BinaryFormat) (m : Nat) (q : Int) : Rounding :=
  let unit := Nat.pow 2 (q - 2).toNat
  let below := if m = Nat.pow 2 f.fractionBits ∧ f.lowestExponent < q then 1 else 2
  { value := 4 * m * unit
    low := (4 * m - below) * unit
    high := (4 * m + 2) * unit
    denominator := Nat.pow 2 (2 - q).toNat
    closed := m % 2 = 0 }

/-- Whether `point · 10 ^ e` reads back as the value. -/
def accepts (r : Rounding) (e : Int) (point : Nat) : Bool :=
  let scaled := point * Nat.pow 10 e.toNat * r.denominator
  let low := r.low * Nat.pow 10 (-e).toNat
  let high := r.high * Nat.pow 10 (-e).toNat
  if r.closed then low ≤ scaled && scaled ≤ high else low < scaled && scaled < high

/-- The point of the grid with step `10 ^ e` that stands for the value, if one reads back. -/
def onGrid? (r : Rounding) (e : Int) : Option Nat :=
  let step := Nat.pow 10 e.toNat * r.denominator
  let value := r.value * Nat.pow 10 (-e).toNat
  let floor := value / step
  if r.accepts e floor then
    if r.accepts e (floor + 1) && (floor + 1) * step - value ≤ value - floor * step then some (floor + 1)
    else some floor
  else if r.accepts e (floor + 1) then some (floor + 1)
  else none

/-- Tries `tries` grids from the step `10 ^ e` down. -/
def firstGrid? (r : Rounding) : Nat → Int → Option (Nat × Int)
  | 0, _ => none
  | tries + 1, e =>
    match r.onGrid? e with
    | some point => some (point, e)
    | none => r.firstGrid? tries (e - 1)

/-- No value needs more than seventeen digits; the coarsest grid is above the value. -/
def shortest? (r : Rounding) : Option (Nat × Int) :=
  let digits (n : Nat) : Nat := (Nat.toDigits 10 n).length
  r.firstGrid? 20 ((digits r.value : Int) - digits r.denominator + 1)

/-! ### Laws -/

/-- A point that is chosen reads back. -/
theorem accepts_of_onGrid? {r : Rounding} {e : Int} {point : Nat} (h : r.onGrid? e = some point) :
    r.accepts e point := by
  simp only [onGrid?] at h
  split at h
  · split at h
    · rename_i both
      cases h
      simp only [Bool.and_eq_true] at both
      exact both.1
    · cases h
      assumption
  · split at h
    · cases h
      assumption
    · cases h

/-- The digits that are chosen read back. -/
theorem accepts_of_firstGrid? {r : Rounding} {tries : Nat} {e e' : Int} {point : Nat}
    (h : r.firstGrid? tries e = some (point, e')) : r.accepts e' point := by
  induction tries generalizing e with
  | zero => cases h
  | succ tries ih =>
    simp only [firstGrid?] at h
    split at h
    · rename_i found
      cases h
      exact accepts_of_onGrid? found
    · exact ih h

end Rounding

/-- The digits of `m · 2 ^ q` and the power of ten of the last of them; nothing is `0`. -/
def shortestDigits (f : BinaryFormat) (m : Nat) (q : Int) : Nat × Int :=
  if m = 0 then (0, 0) else ((Rounding.ofBinary f m q).shortest?).getD (0, 0)

end ApiSurface.Decimal
