import ApiSurface.Decimal.Shortest
import ApiSurface.Text.Numeral

/-!
Floating-point numbers as text: the fewest digits that read back, laid out as a style says.
-/

namespace ApiSurface.Decimal

/-- Which numbers are written how. The magnitude of a number is the place of its point: `d.ddd` has
magnitude 1, `0.ddd` has magnitude 0. -/
structure Style where
  notANumber : String
  infinity : String
  /-- Whole numbers up to this magnitude end in `.0`. -/
  pointZeroUpTo : Int
  /-- Numbers of a magnitude outside these bounds are written with an exponent. -/
  positional : Option (Int × Int)
  deriving Repr

/-- `digits · 10 ^ e` with its point in place. -/
def positionalText (pointZero : Bool) (digits : List Char) (e : Int) : List Char :=
  if 0 ≤ e then
    digits ++ List.replicate e.toNat '0' ++ (if pointZero then ['.', '0'] else [])
  else
    let whole := digits.length - e.natAbs
    if whole = 0 then ['0', '.'] ++ List.replicate (e.natAbs - digits.length) '0' ++ digits
    else digits.take whole ++ '.' :: digits.drop whole

/-- One digit, the others after a point, and the exponent. -/
def exponentText (digits : List Char) (magnitude : Int) : List Char :=
  let power := magnitude - 1
  let sign := if power < 0 then ['-'] else []
  digits.take 1 ++ (if digits.length > 1 then '.' :: digits.drop 1 else []) ++
    'e' :: sign ++ Text.decimal power.natAbs

/-- The text of a value of the format. -/
def Style.text (style : Style) (f : BinaryFormat) : BinaryValue → List Char
  | .notANumber => style.notANumber.toList
  | .infinite negative => (if negative then ['-'] else []) ++ style.infinity.toList
  | .finite negative m q =>
    let (point, e) := shortestDigits f m q
    let digits := Text.decimal point
    let magnitude := digits.length + e
    let inside := match style.positional with
      | some (low, high) => m = 0 || (low ≤ magnitude && magnitude ≤ high)
      | none => true
    (if negative then ['-'] else []) ++
      if inside then positionalText (magnitude ≤ style.pointZeroUpTo) digits e
      else exponentText digits magnitude

end ApiSurface.Decimal
