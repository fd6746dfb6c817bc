import ApiSurface.Literal.Escape
import ApiSurface.Proofs.Result
import ApiSurface.Proofs.Text.Numeral
import ApiSurface.Proofs.Text.Units

/-!
The grammar of escapes, beside the reader. A backslash begins an escape of one letter, of one to three octal digits
or of a code unit by number, and the escapes and the characters between them spell code units. Main statements: a
text with escapes is read exactly when it spells units with their surrogates in pairs, and as the text that they
spell (`unescape_iff_spells`). A number of a unit may have a plus sign in place of its first digit
(`unescape_signedUnit`).
-/

namespace ApiSurface.Literal

open ApiSurface.Text

/-! ### The grammar -/

/-- The letters of short escapes with the characters that they stand for. -/
def shortEscapes : List (Char × Char) :=
  [('n', '\n'), ('t', '\t'), ('r', '\r'), ('b', '\x08'), ('f', '\x0c'), ('s', ' '), ('\\', '\\'), ('"', '"'),
    ('\'', '\'')]

/-- One to three octal digits that stand for a byte. -/
structure IsOctal (digits : List Char) (u : Nat) : Prop where
  filled : digits ≠ []
  atMost : digits.length ≤ 3
  numeral : IsNumeral 8 digits u
  byte : u ≤ 0xFF

/-- As many octal digits as there can be in front of a rest. -/
structure IsLongestOctal (digits rest : List Char) (u : Nat) : Prop extends IsOctal digits u where
  longest : ∀ other v, IsOctal other v → other <+: digits ++ rest → other.length ≤ digits.length

/-- A code unit as exactly four hexadecimal digits. -/
def IsFourDigits (digits : List Char) (u : Nat) : Prop := digits.length = 4 ∧ IsNumeral 16 digits u

/-- A code unit as a plus sign and three hexadecimal digits. -/
def IsSigned (digits : List Char) (u : Nat) : Prop :=
  ∃ more, digits = '+' :: more ∧ more.length = 3 ∧ IsNumeral 16 more u

/-- A code unit by number, as the reader takes it. -/
def IsUnitText (digits : List Char) (u : Nat) : Prop := IsFourDigits digits u ∨ IsSigned digits u

/-- What may follow a backslash in front of a rest, with the code unit that it stands for. Which texts number a
unit is given. -/
inductive Escape (IsUnit : List Char → Nat → Prop) (rest : List Char) : List Char → Nat → Prop where
  | short {c d : Char} : (c, d) ∈ shortEscapes → Escape IsUnit rest [c] d.toNat
  | octal {digits : List Char} {u : Nat} : IsLongestOctal digits rest u → Escape IsUnit rest digits u
  | unit {digits : List Char} {u : Nat} (more : Nat) : IsUnit digits u →
      Escape IsUnit rest (List.replicate (more + 1) 'u' ++ digits) u

/-- The code units that a text with escapes spells: an escape stands for its unit, any other character for its
own. -/
inductive Spells (IsUnit : List Char → Nat → Prop) : List Char → List Nat → Prop where
  | nil : Spells IsUnit [] []
  | plain {c : Char} {cs : List Char} {us : List Nat} : c ≠ '\\' → Spells IsUnit cs us →
      Spells IsUnit (c :: cs) (charUnits c ++ us)
  | escape {e rest : List Char} {u : Nat} {us : List Nat} : Escape IsUnit rest e u → Spells IsUnit rest us →
      Spells IsUnit ('\\' :: (e ++ rest)) (u :: us)

/-! ### Short escapes -/

theorem shortEscape?_eq_some_iff {c : Char} {u : Nat} :
    shortEscape? c = some u ↔ ∃ d, (c, d) ∈ shortEscapes ∧ d.toNat = u := by
  constructor
  · intro h
    unfold shortEscape? at h
    split_ifs at h with h1 h2 h3 h4 h5 h6 h7
    · exact ⟨'\n', by rw [h1]; decide, Option.some.inj h⟩
    · exact ⟨'\t', by rw [h2]; decide, Option.some.inj h⟩
    · exact ⟨'\r', by rw [h3]; decide, Option.some.inj h⟩
    · exact ⟨'\x08', by rw [h4]; decide, Option.some.inj h⟩
    · exact ⟨'\x0c', by rw [h5]; decide, Option.some.inj h⟩
    · exact ⟨' ', by rw [h6]; decide, Option.some.inj h⟩
    · refine ⟨c, ?_, Option.some.inj h⟩
      rcases h7 with rfl | rfl | rfl <;> decide
  · rintro ⟨d, mem, rfl⟩
    have all : ∀ pair ∈ shortEscapes, shortEscape? pair.1 = some pair.2.toNat := by decide
    exact all (c, d) mem

/-- No octal digit and no `u` is the letter of a short escape. -/
theorem shortEscape?_eq_none {c : Char} (other : c = 'u' ∨ (octalValue? c).isSome) : shortEscape? c = none := by
  rw [Option.eq_none_iff_forall_ne_some]
  intro u h
  obtain ⟨d, mem, -⟩ := shortEscape?_eq_some_iff.1 h
  have all : ∀ pair ∈ shortEscapes, pair.1 ≠ 'u' ∧ ¬(octalValue? pair.1).isSome := by decide
  exact other.elim (all (c, d) mem).1 (all (c, d) mem).2

/-! ### Octal escapes -/

theorem octalValue?_eq_some_iff {c : Char} {d : Nat} : octalValue? c = some d ↔ digitValue? c = some d ∧ d < 8 := by
  simp only [octalValue?, digitValue?]
  split_ifs <;> simp <;> omega

/-- Where the first character is no octal digit, or one too many for a byte, no digits can follow. -/
theorem eq_nil_of_readDigits? {value v : Nat} {cs other : List Char}
    (stops : ∀ c ∈ cs.head?, ∀ d, octalValue? c = some d → 0xFF < value * 8 + d) (front : other <+: cs)
    (read : readDigits? 8 value other = some v) (byte : v ≤ 0xFF) : other = [] := by
  cases other with
  | nil => rfl
  | cons c other =>
    obtain ⟨rest, rfl⟩ := front
    obtain ⟨d, digit, low, read⟩ := readDigits?_cons_eq_some_iff.1 read
    have large : 0xFF < value * 8 + d := stops c rfl d (octalValue?_eq_some_iff.2 ⟨digit, low⟩)
    have le : value * 8 + d ≤ v := le_of_readDigits? (by decide) read
    omega

/-- What is read on in octal: digits, as many as there can be. -/
theorem exists_readOctal (more value : Nat) (cs : List Char) :
    ∃ digits, cs = digits ++ (readOctal more value cs).2 ∧ digits.length ≤ more ∧
      readDigits? 8 value digits = some (readOctal more value cs).1 ∧
      (value ≤ 0xFF → (readOctal more value cs).1 ≤ 0xFF) ∧
      ∀ other v, other <+: cs → other.length ≤ more → readDigits? 8 value other = some v → v ≤ 0xFF →
        other.length ≤ digits.length := by
  fun_induction readOctal more value cs with
  | case1 more value c cs d digit small ih =>
    obtain ⟨digits, whole, atMost, taken, byte, longest⟩ := ih
    have octal := octalValue?_eq_some_iff.1 digit
    refine ⟨c :: digits, by rw [List.cons_append, ← whole], Nat.succ_le_succ atMost,
      readDigits?_cons_eq_some_iff.2 ⟨d, octal.1, octal.2, taken⟩, fun _ => byte small, ?_⟩
    intro other v front few read least
    cases other with
    | nil => exact Nat.zero_le _
    | cons e other =>
      obtain ⟨rfl, behind⟩ := List.cons_prefix_cons.1 front
      obtain ⟨d', digit', -, read⟩ := readDigits?_cons_eq_some_iff.1 read
      obtain rfl : d' = d := Option.some.inj (digit'.symm.trans octal.1)
      exact Nat.succ_le_succ (longest other v behind (Nat.le_of_succ_le_succ few) read least)
  | case2 more value c cs d digit large =>
    refine ⟨[], rfl, Nat.zero_le _, rfl, id, fun other v front _ read byte => ?_⟩
    refine (congrArg List.length (eq_nil_of_readDigits? (fun e first d' digit' => ?_) front read byte)).le
    obtain rfl : c = e := Option.some.inj first
    obtain rfl : d = d' := Option.some.inj (digit.symm.trans digit')
    exact Nat.lt_of_not_le large
  | case3 more value c cs noDigit =>
    refine ⟨[], rfl, Nat.zero_le _, rfl, id, fun other v front _ read byte => ?_⟩
    refine (congrArg List.length (eq_nil_of_readDigits? (fun e first d' digit' => ?_) front read byte)).le
    obtain rfl : c = e := Option.some.inj first
    rw [noDigit] at digit'
    cases digit'
  | case4 more value cs stop =>
    refine ⟨[], rfl, Nat.zero_le _, rfl, id, fun other v front few _ _ => ?_⟩
    cases more with
    | zero => exact few
    | succ more =>
      -- with a digit still allowed the text is at its end
      cases cs with
      | nil => exact (congrArg List.length (List.prefix_nil.1 front)).le
      | cons c cs => exact absurd rfl (stop more c cs rfl)

/-- The reader takes as many octal digits as there can be. -/
theorem isLongestOctal_readOctal {c : Char} {d : Nat} (digit : octalValue? c = some d) (cs : List Char) :
    ∃ digits, cs = digits ++ (readOctal 2 d cs).2 ∧
      IsLongestOctal (c :: digits) (readOctal 2 d cs).2 (readOctal 2 d cs).1 := by
  obtain ⟨digits, whole, atMost, read, byte, longest⟩ := exists_readOctal 2 d cs
  have octal := octalValue?_eq_some_iff.1 digit
  have first (others : List Char) : readDigits? 8 0 (c :: others) = readDigits? 8 d others := by
    simp [readDigits?, octal]
  refine ⟨digits, whole, ⟨⟨List.cons_ne_nil _ _, Nat.succ_le_succ atMost, ?_, byte (by omega)⟩, ?_⟩⟩
  · rw [← readDigits?_eq_some_iff, first, read]
  · intro other v h front
    obtain ⟨e, other, rfl⟩ := List.exists_cons_of_ne_nil h.filled
    rw [List.cons_append, ← whole] at front
    obtain ⟨rfl, behind⟩ := List.cons_prefix_cons.1 front
    have read := readDigits?_eq_some_iff.2 h.numeral
    rw [first] at read
    exact Nat.succ_le_succ (longest other v behind (Nat.le_of_succ_le_succ h.atMost) read h.byte)

/-- At the front of a text there is one longest octal escape. -/
theorem IsLongestOctal.unique {digits rest digits' rest' : List Char} {u u' : Nat} (h : IsLongestOctal digits rest u)
    (h' : IsLongestOctal digits' rest' u') (same : digits ++ rest = digits' ++ rest') :
    digits = digits' ∧ rest = rest' ∧ u = u' := by
  have front : digits <+: digits' ++ rest' := ⟨rest, same⟩
  have front' : digits' <+: digits ++ rest := ⟨rest', same.symm⟩
  have length : digits.length = digits'.length :=
    Nat.le_antisymm (h'.longest digits u h.toIsOctal front) (h.longest digits' u' h'.toIsOctal front')
  obtain ⟨rfl, rfl⟩ := List.append_inj same length
  exact ⟨rfl, rfl, h.numeral.unique h'.numeral⟩

/-! ### Code units by number -/

theorem isUnitText_iff {digits : List Char} {u : Nat} :
    IsUnitText digits u ↔ byteLength digits = 4 ∧ readNatural? 16 digits = some u := by
  rw [readNatural?_eq_some_iff]
  constructor
  · rintro (⟨length, numeral⟩ | ⟨more, rfl, length, numeral⟩)
    · refine ⟨by rw [numeral.byteLength_eq, length], digits, ?_, numeral, .inl rfl⟩
      rintro rfl
      cases length
    · refine ⟨by rw [byteLength_cons, numeral.byteLength_eq, length]; rfl, more, ?_, numeral, .inr rfl⟩
      rintro rfl
      cases length
  · rintro ⟨bytes, more, -, numeral, rfl | rfl⟩
    · exact .inl ⟨by rw [← numeral.byteLength_eq, bytes], numeral⟩
    · rw [byteLength_cons, numeral.byteLength_eq] at bytes
      exact .inr ⟨more, rfl, Nat.add_left_cancel (bytes : 1 + more.length = 1 + 3), numeral⟩

theorem IsUnitText.length {digits : List Char} {u : Nat} (h : IsUnitText digits u) : digits.length = 4 := by
  rcases h with ⟨length, -⟩ | ⟨more, rfl, length, -⟩
  · exact length
  · rw [List.length_cons, length]

theorem IsUnitText.lt {digits : List Char} {u : Nat} (h : IsUnitText digits u) : u < 0x10000 := by
  rcases h with ⟨length, numeral⟩ | ⟨more, -, length, numeral⟩
  · have small := numeral.lt (by decide)
    rwa [length] at small
  · have small := numeral.lt (by decide)
    rw [length] at small
    exact lt_trans small (by decide)

/-- A unit by number does not begin with the letter that leads it. -/
theorem IsUnitText.head_ne {digits : List Char} {u : Nat} (h : IsUnitText digits u) : ∀ c ∈ digits.head?, c ≠ 'u' := by
  rintro c first rfl
  rcases h with ⟨-, numeral⟩ | ⟨more, rfl, -, -⟩
  · exact numeral.notMem (by decide) (List.mem_of_mem_head? first)
  · cases first

/-- The reader takes four characters that number a unit. -/
theorem readUnit_eq_ok_iff {cs rest : List Char} {u : Nat} :
    readUnit cs = .ok (u, rest) ↔ ∃ digits, cs = digits ++ rest ∧ IsUnitText digits u := by
  constructor
  · intro h
    simp only [readUnit] at h
    split at h
    · cases h
    · rename_i bytes
      split at h
      · rename_i number
        cases h
        exact ⟨cs.take 4, (List.take_append_drop 4 cs).symm, isUnitText_iff.2 ⟨Decidable.not_not.1 bytes, number⟩⟩
      · cases h
  · rintro ⟨digits, rfl, h⟩
    obtain ⟨bytes, number⟩ := isUnitText_iff.1 h
    have front : (digits ++ rest).take 4 = digits := List.take_left' h.length
    have back : (digits ++ rest).drop 4 = rest := List.drop_left' h.length
    simp only [readUnit, front, back, bytes, number]
    rfl

/-! ### Escapes -/

/-- All letters `u` in front are passed. -/
theorem exists_replicate (cs : List Char) :
    ∃ more, cs = List.replicate more 'u' ++ cs.dropWhile (· == 'u') := by
  refine ⟨(cs.takeWhile (· == 'u')).length, ?_⟩
  have letters : cs.takeWhile (· == 'u') = List.replicate (cs.takeWhile (· == 'u')).length 'u' :=
    List.eq_replicate_iff.2 ⟨rfl, fun c mem => by simpa using List.all_eq_true.1 List.all_takeWhile c mem⟩
  rw [← letters, List.takeWhile_append_dropWhile]

theorem IsUnitText.dropWhile_replicate {digits : List Char} {u : Nat} (h : IsUnitText digits u) (more : Nat)
    (rest : List Char) :
    (List.replicate more 'u' ++ (digits ++ rest)).dropWhile (· == 'u') = digits ++ rest := by
  rw [List.dropWhile_append_of_pos fun c mem => by simp [List.eq_of_mem_replicate mem]]
  obtain ⟨c, digits, rfl⟩ := List.exists_cons_of_ne_nil (List.ne_nil_of_length_eq_add_one h.length)
  exact List.dropWhile_cons_of_neg (by simpa using h.head_ne c rfl)

/-- The reader takes the escapes of the grammar. -/
theorem readEscape_eq_ok_iff {cs rest : List Char} {u : Nat} :
    readEscape cs = .ok (u, rest) ↔ ∃ e, cs = e ++ rest ∧ Escape IsUnitText rest e u := by
  constructor
  · intro h
    cases cs with
    | nil => cases h
    | cons c cs =>
      simp only [readEscape] at h
      split at h
      · rename_i found
        cases h
        obtain ⟨d, mem, rfl⟩ := shortEscape?_eq_some_iff.1 found
        exact ⟨[c], rfl, .short mem⟩
      · split at h
        · rename_i letter
          subst letter
          obtain ⟨more, whole⟩ := exists_replicate cs
          obtain ⟨digits, behind, unit⟩ := readUnit_eq_ok_iff.1 h
          refine ⟨List.replicate (more + 1) 'u' ++ digits, ?_, .unit more unit⟩
          rw [List.append_assoc, ← behind, List.replicate_succ, List.cons_append, ← whole]
        · split at h
          · rename_i digit
            obtain ⟨digits, whole, octal⟩ := isLongestOctal_readOctal digit cs
            rw [Except.ok.inj h] at whole octal
            exact ⟨c :: digits, by rw [List.cons_append, ← whole], .octal octal⟩
          · cases h
  · rintro ⟨e, rfl, h⟩
    cases h with
    | @short c d mem =>
      have letter : shortEscape? c = some d.toNat := shortEscape?_eq_some_iff.2 ⟨d, mem, rfl⟩
      simp [readEscape, letter]
    | octal octal =>
      obtain ⟨c, digits, rfl⟩ := List.exists_cons_of_ne_nil octal.filled
      obtain ⟨d, digit, low, -⟩ := readDigits?_cons_eq_some_iff.1 (readDigits?_eq_some_iff.2 octal.numeral)
      have digit : octalValue? c = some d := octalValue?_eq_some_iff.2 ⟨digit, low⟩
      have noShort : shortEscape? c = none := shortEscape?_eq_none (.inr (by rw [digit]; rfl))
      have noUnit : c ≠ 'u' := by
        rintro rfl
        rw [show octalValue? 'u' = none by decide] at digit
        cases digit
      obtain ⟨more, whole, other⟩ := isLongestOctal_readOctal digit (digits ++ rest)
      obtain ⟨-, behind, value⟩ := octal.unique other (by rw [List.cons_append, List.cons_append, ← whole])
      have read : readOctal 2 d (digits ++ rest) = (u, rest) := Prod.ext value.symm behind.symm
      simp only [List.cons_append, readEscape, noShort, noUnit, if_false, digit, read]
    | @unit digits u more unit =>
      have noShort : shortEscape? 'u' = none := shortEscape?_eq_none (.inl rfl)
      rw [List.replicate_succ, List.cons_append, List.cons_append, List.append_assoc]
      simp only [readEscape, noShort, if_true, unit.dropWhile_replicate]
      exact readUnit_eq_ok_iff.2 ⟨digits, rfl, unit⟩

/-! ### Texts with escapes -/

theorem escapedUnits_cons {c : Char} (other : c ≠ '\\') (cs : List Char) :
    escapedUnits (c :: cs) = (escapedUnits cs).map (charUnits c ++ ·) := by
  rw [escapedUnits]
  simp [other]

theorem escapedUnits_slash_eq_ok_iff {cs : List Char} {us : List Nat} :
    escapedUnits ('\\' :: cs) = .ok us ↔
      ∃ u rest more, readEscape cs = .ok (u, rest) ∧ escapedUnits rest = .ok more ∧ us = u :: more := by
  rw [escapedUnits]
  simp only [if_true]
  split
  · rename_i found
    simp [found]
  · rename_i u rest found
    simp only [map_eq_ok_iff, found, Except.ok.injEq, Prod.mk.injEq]
    constructor
    · rintro ⟨more, behind, rfl⟩
      exact ⟨u, rest, more, ⟨rfl, rfl⟩, behind, rfl⟩
    · rintro ⟨_, _, more, ⟨rfl, rfl⟩, behind, rfl⟩
      exact ⟨more, behind, rfl⟩

/-- The reader finds the units that a text spells. -/
theorem escapedUnits_eq_ok_iff {cs : List Char} {us : List Nat} :
    escapedUnits cs = .ok us ↔ Spells IsUnitText cs us := by
  constructor
  · intro h
    fun_induction escapedUnits cs generalizing us with
    | case1 =>
      obtain rfl := Except.ok.inj h
      exact .nil
    | case2 => cases h
    | case3 cs u rest found ih =>
      obtain ⟨more, behind, rfl⟩ := map_eq_ok_iff.1 h
      obtain ⟨e, rfl, escape⟩ := readEscape_eq_ok_iff.1 found
      exact .escape escape (ih behind)
    | case4 c cs other ih =>
      obtain ⟨more, behind, rfl⟩ := map_eq_ok_iff.1 h
      exact .plain other (ih behind)
  · intro h
    induction h with
    | nil =>
      rw [escapedUnits]
    | plain other _ ih => rw [escapedUnits_cons other, ih, map_ok]
    | @escape e rest u us escape _ ih =>
      exact escapedUnits_slash_eq_ok_iff.2 ⟨u, rest, us, readEscape_eq_ok_iff.2 ⟨e, rfl, escape⟩, ih, rfl⟩

theorem Escape.lt {rest e : List Char} {u : Nat} (h : Escape IsUnitText rest e u) : u < 0x10000 := by
  cases h with
  | short mem =>
    have all : ∀ pair ∈ shortEscapes, pair.2.toNat < 0x10000 := by decide
    exact all _ mem
  | octal octal => exact lt_of_le_of_lt octal.byte (by decide)
  | unit _ unit => exact unit.lt

theorem Spells.lt {cs : List Char} {us : List Nat} (h : Spells IsUnitText cs us) : ∀ u ∈ us, u < 0x10000 := by
  induction h with
  | nil => simp
  | @plain c _ _ _ _ ih => exact List.forall_mem_append.2 ⟨charUnits_lt c, ih⟩
  | escape escape _ ih => exact List.forall_mem_cons.2 ⟨escape.lt, ih⟩

theorem unescape_eq_ok_iff {cs text : List Char} : unescape cs = .ok text ↔ Spells IsUnitText cs (units text) := by
  rw [← escapedUnits_eq_ok_iff]
  unfold unescape
  split
  · rename_i fault found
    simp [found]
  · rename_i us found
    have small := (escapedUnits_eq_ok_iff.1 found).lt
    rw [found, Except.ok.injEq]
    cases text? : ofUnits? us with
    | none =>
      refine ⟨nofun, ?_⟩
      rintro rfl
      rw [ofUnits?_units] at text?
      cases text?
    | some spelled =>
      obtain rfl := (ofUnits?_eq_some_iff small).1 text?
      rw [Except.ok.injEq, units_inj]

/-- **What a text with escapes stands for.** The reader succeeds exactly on the texts that spell units whose
surrogates are in pairs, and gives the text that they spell. -/
theorem unescape_iff_spells (cs : List Char) :
    ((∃ text, unescape cs = .ok text) ↔ ∃ us, Spells IsUnitText cs us ∧ Paired us) ∧
      ∀ text, unescape cs = .ok text ↔ Spells IsUnitText cs (units text) := by
  refine ⟨?_, fun text => unescape_eq_ok_iff⟩
  constructor
  · rintro ⟨text, read⟩
    exact ⟨units text, unescape_eq_ok_iff.1 read, paired_units text⟩
  · rintro ⟨us, spells, paired⟩
    obtain ⟨text, rfl⟩ := (exists_units_iff spells.lt).2 paired
    exact ⟨text, unescape_eq_ok_iff.2 spells⟩

/-! ### Signs -/

/-- Behind a backslash and the letter of a unit no sign is a digit. -/
theorem not_escape_sign {rest e more : List Char} {u : Nat} (h : Escape IsFourDigits rest e u)
    (sign : e ++ rest = 'u' :: '+' :: more) : False := by
  cases h with
  | @short c d mem =>
    obtain ⟨rfl, -⟩ := List.cons.inj sign
    have letter : shortEscape? 'u' = some d.toNat := shortEscape?_eq_some_iff.2 ⟨d, mem, rfl⟩
    rw [shortEscape?_eq_none (.inl rfl)] at letter
    cases letter
  | octal octal =>
    obtain ⟨c, digits, rfl⟩ := List.exists_cons_of_ne_nil octal.filled
    obtain ⟨rfl, -⟩ := List.cons.inj sign
    exact octal.numeral.notMem (by decide) List.mem_cons_self
  | @unit digits u many unit =>
    have passed := congrArg (List.dropWhile (· == 'u')) sign
    rw [List.append_assoc, IsUnitText.dropWhile_replicate (.inl unit)] at passed
    obtain ⟨d, digits, rfl⟩ := List.exists_cons_of_ne_nil (List.ne_nil_of_length_eq_add_one unit.1)
    obtain ⟨rfl, -⟩ := List.cons.inj passed
    exact unit.2.notMem (by decide) List.mem_cons_self

/-- A plus sign and three digits are taken for a unit, though they are not four digits. -/
theorem unescape_signedUnit : unescape "\\u+041".toList = .ok ['A'] ∧
    ¬∃ us, Spells IsFourDigits "\\u+041".toList us := by
  have unit : IsUnitText "+041".toList 0x41 := isUnitText_iff.2 ⟨by decide, by decide⟩
  have escape : Escape IsUnitText [] "u+041".toList 0x41 := .unit 0 unit
  have lenient : Spells IsUnitText "\\u+041".toList (units ['A']) := .escape escape .nil
  refine ⟨unescape_eq_ok_iff.2 lenient, ?_⟩
  rintro ⟨us, spells⟩
  generalize line : "\\u+041".toList = cs at spells
  cases spells with
  | nil => exact absurd line (by decide)
  | plain other => exact other (List.cons.inj line).1.symm
  | escape escape => exact not_escape_sign escape (List.cons.inj line).2.symm

end ApiSurface.Literal
