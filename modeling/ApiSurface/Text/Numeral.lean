/-!
Numbers as text. Numbers are written in decimal without leading zeros and read with leading zeros and
one optional plus sign. Main statement: what is written is read back, whenever it is within the bound
(`readDecimal?_decimal`).
-/

namespace ApiSurface.Text

/-- The value of a digit in bases up to sixteen, letters of either case. -/
def digitValue? (c : Char) : Option Nat :=
  let n := c.toNat
  if 0x30 ≤ n ∧ n ≤ 0x39 then some (n - 0x30)
  else if 0x41 ≤ n ∧ n ≤ 0x46 then some (n - 0x41 + 10)
  else if 0x61 ≤ n ∧ n ≤ 0x66 then some (n - 0x61 + 10)
  else none

/-- Reads digits of the base on from the value read so far. -/
def readDigits? (base : Nat) : Nat → List Char → Option Nat
  | value, [] => some value
  | value, c :: cs =>
    match digitValue? c with
    | some d => if d < base then readDigits? base (value * base + d) cs else none
    | none => none

/-- A natural number in the base: an optional plus sign, then at least one digit. -/
def readNatural? (base : Nat) (cs : List Char) : Option Nat :=
  match cs with
  | '+' :: [] => none
  | '+' :: digits => readDigits? base 0 digits
  | [] => none
  | digits => readDigits? base 0 digits

/-- A decimal number that is at most `bound`. -/
def readDecimal? (bound : Nat) (cs : List Char) : Option Nat :=
  (readNatural? 10 cs).filter (· ≤ bound)

/-- The number in decimal. -/
def decimal (n : Nat) : List Char := Nat.toDigits 10 n

/-- The digit of this value in bases up to sixteen, small letters. -/
def digit (d : Nat) : Char := if d < 10 then Char.ofNat (0x30 + d) else Char.ofNat (0x61 + (d - 10))

/-- The number as exactly four hexadecimal digits; higher digits are dropped. -/
def fourHex (n : Nat) : List Char :=
  [digit (n / 4096 % 16), digit (n / 256 % 16), digit (n / 16 % 16), digit (n % 16)]

/-- The number in hexadecimal, without leading zeros. -/
def hexadecimal (n : Nat) : List Char := Nat.toDigits 16 n

/-! ### Laws -/

/-- A digit has the value that it stands for. -/
theorem digitValue?_digit {d : Nat} (h : d < 16) : digitValue? (digit d) = some d := by
  have all : ∀ e ∈ List.range 16, digitValue? (digit e) = some e := by decide
  exact all d (List.mem_range.mpr h)

/-- Four hexadecimal digits are read back. -/
theorem readDigits?_fourHex {n : Nat} (h : n < 65536) : readDigits? 16 0 (fourHex n) = some n := by
  have d (k : Nat) : k % 16 < 16 := Nat.mod_lt _ (by decide)
  simp only [fourHex, readDigits?, digitValue?_digit (d _), d, if_true, Option.some.injEq]
  omega

/-- A digit of core's printer has the value that it stands for. -/
theorem digitValue?_digitChar {d : Nat} (h : d < 16) : digitValue? (Nat.digitChar d) = some d := by
  have all : ∀ e ∈ List.range 16, digitValue? (Nat.digitChar e) = some e := by decide
  exact all d (List.mem_range.mpr h)

theorem readDigits?_append {base value : Nat} {a b : List Char} :
    readDigits? base value (a ++ b) = (readDigits? base value a).bind fun v => readDigits? base v b := by
  induction a generalizing value with
  | nil => rfl
  | cons c a ih =>
    simp only [List.cons_append, readDigits?]
    split
    · split
      · exact ih
      · rfl
    · rfl

/-- The digits of a number are read back. -/
theorem readDigits?_toDigits {base : Nat} (low : 1 < base) (high : base ≤ 16) (n : Nat) :
    readDigits? base 0 (Nat.toDigits base n) = some n := by
  induction n using Nat.strongRecOn with
  | _ n ih =>
    by_cases small : n < base
    · simp [Nat.toDigits_of_lt_base small, readDigits?,
        digitValue?_digitChar (Nat.lt_of_lt_of_le small high), small]
    · have step : Nat.toDigits base n = Nat.toDigits base (n / base) ++ [Nat.digitChar (n % base)] :=
        Nat.toDigits_of_base_le low (by omega)
      have last : n % base < base := Nat.mod_lt _ (by omega)
      have before := ih (n / base) (Nat.div_lt_self (by omega) low)
      rw [step, readDigits?_append, before]
      simp [readDigits?, digitValue?_digitChar (Nat.lt_of_lt_of_le last high), last, Nat.div_add_mod']

/-- The decimal digits of a number are read back. -/
theorem readDigits?_decimal (n : Nat) : readDigits? 10 0 (decimal n) = some n :=
  readDigits?_toDigits (by decide) (by decide) n

theorem decimal_ne_nil (n : Nat) : decimal n ≠ [] := Nat.toDigits_ne_nil

/-- What is written is read back, whenever it is within the bound. -/
theorem readDecimal?_decimal {n bound : Nat} (small : n ≤ bound) :
    readDecimal? bound (decimal n) = some n := by
  have back := readDigits?_decimal n
  have natural : readNatural? 10 (decimal n) = some n := by
    unfold readNatural?
    split <;> rename_i shape
    · rw [shape] at back
      cases back
    · rw [shape] at back
      cases back
    · exact absurd shape (decimal_ne_nil n)
    · exact back
  simp [readDecimal?, natural, small]

end ApiSurface.Text
