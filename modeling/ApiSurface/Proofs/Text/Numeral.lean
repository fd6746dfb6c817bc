import ApiSurface.Text.Basic
import ApiSurface.Text.Numeral
import Mathlib.Data.Nat.Digits.Lemmas

/-!
Digits and the numbers that they stand for. Main statements: the reader of digits and the reader of numbers
succeed on the numerals of their base alone, the latter also behind a plus sign (`readDigits?_eq_some_iff`,
`readNatural?_eq_some_iff`).
-/

namespace ApiSurface.Text

/-- Digits of the base that stand for the number, the most significant one first. -/
def IsNumeral (base : Nat) (digits : List Char) (n : Nat) : Prop :=
  ∃ values : List Nat, digits.map digitValue? = values.map some ∧ (∀ v ∈ values, v < base) ∧
    Nat.ofDigits base values.reverse = n

/-! ### ASCII -/

/-- A character of ASCII takes one byte. -/
theorem byteLength_of_ascii {t : List Char} (low : ∀ c ∈ t, c.toNat < 0x80) : byteLength t = t.length := by
  induction t with
  | nil => rfl
  | cons c t ih =>
    have one : c.utf8Size = 1 := by
      rw [Char.utf8Size_eq_one_iff, UInt32.le_iff_toNat_le]
      exact Nat.le_of_lt_succ (low c List.mem_cons_self)
    rw [byteLength_cons, one, ih fun d mem => low d (List.mem_cons_of_mem _ mem), List.length_cons, Nat.add_comm]

/-! ### Digits -/

theorem readDigits?_cons_eq_some_iff {base value n : Nat} {c : Char} {cs : List Char} :
    readDigits? base value (c :: cs) = some n ↔
      ∃ d, digitValue? c = some d ∧ d < base ∧ readDigits? base (value * base + d) cs = some n := by
  rw [readDigits?]
  cases digitValue? c with
  | none => simp
  | some d => by_cases small : d < base <;> simp [small]

/-- The value read so far counts as that of digits in front. -/
theorem readDigits?_eq_some_iff_foldl {base value n : Nat} {digits : List Char} :
    readDigits? base value digits = some n ↔
      ∃ values : List Nat, digits.map digitValue? = values.map some ∧ (∀ v ∈ values, v < base) ∧
        values.foldl (fun m v => m * base + v) value = n := by
  induction digits generalizing value with
  | nil =>
    constructor
    · intro h
      exact ⟨[], rfl, by simp, Option.some.inj h⟩
    · rintro ⟨values, same, -, whole⟩
      obtain rfl := List.map_eq_nil_iff.1 same.symm
      exact congrArg some whole
  | cons c digits ih =>
    rw [readDigits?_cons_eq_some_iff]
    constructor
    · rintro ⟨d, digit, small, more⟩
      obtain ⟨values, same, each, whole⟩ := ih.1 more
      exact ⟨d :: values, by rw [List.map_cons, List.map_cons, digit, same], List.forall_mem_cons.2 ⟨small, each⟩,
        whole⟩
    · rintro ⟨values, same, each, whole⟩
      obtain ⟨d, values, rfl, digit, same⟩ := List.map_eq_cons_iff.1 same.symm
      obtain ⟨small, each⟩ := List.forall_mem_cons.1 each
      exact ⟨d, digit.symm, small, ih.2 ⟨values, same.symm, each, whole⟩⟩

/-- The reader of digits succeeds on the numerals of its base. -/
theorem readDigits?_eq_some_iff {base n : Nat} {digits : List Char} :
    readDigits? base 0 digits = some n ↔ IsNumeral base digits n := by
  have horner (values : List Nat) :
      Nat.ofDigits base values.reverse = values.foldl (fun m v => m * base + v) 0 := by
    rw [Nat.ofDigits_eq_foldr, List.foldr_reverse]
    congr 1
    funext m v
    rw [Nat.mul_comm, Nat.add_comm, Nat.cast_id]
  simp only [readDigits?_eq_some_iff_foldl, IsNumeral, horner]

/-- Further digits do not make a number less. -/
theorem le_of_readDigits? {base value n : Nat} (positive : 0 < base) {digits : List Char}
    (h : readDigits? base value digits = some n) : value ≤ n := by
  induction digits generalizing value with
  | nil => exact Nat.le_of_eq (Option.some.inj h)
  | cons c digits ih =>
    obtain ⟨d, -, -, more⟩ := readDigits?_cons_eq_some_iff.1 h
    calc value ≤ value * base := Nat.le_mul_of_pos_right _ positive
      _ ≤ value * base + d := Nat.le_add_right _ _
      _ ≤ n := ih more

/-- Digits are in ASCII. -/
theorem ascii_of_digitValue? {c : Char} {d : Nat} (h : digitValue? c = some d) : c.toNat < 0x80 := by
  simp only [digitValue?] at h
  split_ifs at h <;> omega

namespace IsNumeral

variable {base n : Nat} {digits : List Char}

theorem exists_digitValue? (h : IsNumeral base digits n) {c : Char} (mem : c ∈ digits) :
    ∃ d, digitValue? c = some d := by
  obtain ⟨values, same, -⟩ := h
  have value : digitValue? c ∈ values.map some := same ▸ List.mem_map_of_mem mem
  obtain ⟨d, -, digit⟩ := List.mem_map.1 value
  exact ⟨d, digit.symm⟩

theorem notMem (h : IsNumeral base digits n) {c : Char} (other : digitValue? c = none) : c ∉ digits := by
  intro mem
  obtain ⟨d, digit⟩ := h.exists_digitValue? mem
  rw [other] at digit
  cases digit

theorem byteLength_eq (h : IsNumeral base digits n) : byteLength digits = digits.length := by
  refine byteLength_of_ascii fun c mem => ?_
  obtain ⟨d, digit⟩ := h.exists_digitValue? mem
  exact ascii_of_digitValue? digit

theorem unique {m : Nat} (h : IsNumeral base digits n) (h' : IsNumeral base digits m) : n = m :=
  Option.some.inj ((readDigits?_eq_some_iff.2 h).symm.trans (readDigits?_eq_some_iff.2 h'))

theorem lt (h : IsNumeral base digits n) (several : 1 < base) : n < base ^ digits.length := by
  obtain ⟨values, same, each, rfl⟩ := h
  have length : digits.length = values.reverse.length := by
    simpa using congrArg List.length same
  rw [length]
  exact Nat.ofDigits_lt_base_pow_length several fun v mem => each v (List.mem_reverse.1 mem)

end IsNumeral

/-! ### Numbers -/

/-- The reader of numbers takes a numeral that is not empty, with or without a plus sign in front. -/
theorem readNatural?_eq_some_iff {base n : Nat} {cs : List Char} :
    readNatural? base cs = some n ↔
      ∃ digits, digits ≠ [] ∧ IsNumeral base digits n ∧ (cs = digits ∨ cs = '+' :: digits) := by
  constructor
  · intro h
    unfold readNatural? at h
    split at h
    · cases h
    · rename_i digits filled
      exact ⟨digits, filled, readDigits?_eq_some_iff.1 h, .inr rfl⟩
    · cases h
    · rename_i filled
      exact ⟨cs, filled, readDigits?_eq_some_iff.1 h, .inl rfl⟩
  · rintro ⟨digits, filled, numeral, rfl | rfl⟩
    · have noSign : '+' ∉ cs := numeral.notMem (by decide)
      unfold readNatural?
      split
      · simp at noSign
      · simp at noSign
      · exact absurd rfl filled
      · exact readDigits?_eq_some_iff.2 numeral
    · obtain ⟨d, more, rfl⟩ := List.exists_cons_of_ne_nil filled
      exact readDigits?_eq_some_iff.2 numeral

/-! ### Numbers in decimal -/

theorem readNatural?_decimal (n : Nat) : readNatural? 10 (decimal n) = some n :=
  (Option.filter_eq_some_iff.1 (readDecimal?_decimal (Nat.le_refl n))).1

/-- A number above the bound is not read. -/
theorem readDecimal?_decimal_eq_none {n bound : Nat} (large : bound < n) : readDecimal? bound (decimal n) = none := by
  rw [readDecimal?, readNatural?_decimal, Option.filter_some, if_neg (by simpa using large)]

theorem decimal_injective {m n : Nat} (same : decimal m = decimal n) : m = n := by
  have back := readDigits?_decimal m
  rw [same, readDigits?_decimal n] at back
  exact (Option.some.inj back).symm

end ApiSurface.Text
