import ApiSurface.Text.Units

/-!
Code units that spell a text. Main statements: units spell a text exactly when every surrogate among them is half
of a pair (`exists_units_iff`), and the text that is read from units is the one that they spell
(`ofUnits?_eq_some_iff`).
-/

namespace ApiSurface.Text

/-- A code unit that is half of a pair. -/
def IsSurrogate (u : Nat) : Prop := 0xD800 ≤ u ∧ u < 0xE000

instance : DecidablePred IsSurrogate := fun u => inferInstanceAs (Decidable (0xD800 ≤ u ∧ u < 0xE000))

/-- Units among which every surrogate is half of a pair. -/
inductive Paired : List Nat → Prop where
  | nil : Paired []
  | single {u : Nat} {us : List Nat} : ¬IsSurrogate u → Paired us → Paired (u :: us)
  | pair {high low : Nat} {us : List Nat} : isHighSurrogate high → isLowSurrogate low → Paired us →
      Paired (high :: low :: us)

/-! ### Characters by number -/

theorem toNat_ofNat {n : Nat} (valid : n.isValidChar) : (Char.ofNat n).toNat = n := by
  rw [Char.ofNat, dif_pos valid]
  rfl

/-- A unit that is no surrogate is that of a character. -/
theorem charUnits_ofNat {u : Nat} (small : u < 0x10000) (single : ¬IsSurrogate u) :
    charUnits (Char.ofNat u) = [u] := by
  have valid : u.isValidChar := by
    unfold IsSurrogate at single
    unfold Nat.isValidChar
    omega
  rw [charUnits, toNat_ofNat valid, if_pos small]

/-- A pair is that of a character. -/
theorem charUnits_ofNat_pair {high low : Nat} (lead : isHighSurrogate high) (tail : isLowSurrogate low) :
    charUnits (Char.ofNat (0x10000 + (high - 0xD800) * 0x400 + (low - 0xDC00))) = [high, low] := by
  simp only [isHighSurrogate, isLowSurrogate, Bool.and_eq_true, decide_eq_true_eq] at lead tail
  have valid : (0x10000 + (high - 0xD800) * 0x400 + (low - 0xDC00)).isValidChar := by
    unfold Nat.isValidChar
    omega
  rw [charUnits, toNat_ofNat valid, if_neg (by omega)]
  have front : 0xD800 + (0x10000 + (high - 0xD800) * 0x400 + (low - 0xDC00) - 0x10000) / 0x400 = high := by omega
  have back : 0xDC00 + (0x10000 + (high - 0xD800) * 0x400 + (low - 0xDC00) - 0x10000) % 0x400 = low := by omega
  rw [front, back]

theorem isSurrogate_iff {u : Nat} : IsSurrogate u ↔ isHighSurrogate u ∨ isLowSurrogate u := by
  simp only [IsSurrogate, isHighSurrogate, isLowSurrogate, Bool.and_eq_true, decide_eq_true_eq]
  omega

/-! ### Units of texts -/

theorem units_cons (c : Char) (cs : List Char) : units (c :: cs) = charUnits c ++ units cs := List.flatMap_cons

/-- Different texts have different units. -/
theorem units_inj {a b : List Char} : units a = units b ↔ a = b := by
  refine ⟨fun same => ?_, congrArg units⟩
  have back := congrArg ofUnits? same
  rw [ofUnits?_units, ofUnits?_units] at back
  exact Option.some.inj back

/-- The units of a character in front of others. -/
theorem Paired.charUnits_append (c : Char) {us : List Nat} (h : Paired us) : Paired (charUnits c ++ us) := by
  have range := toNat_range c
  unfold charUnits
  split
  · refine .single (fun surrogate => ?_) h
    obtain ⟨low, high⟩ := surrogate
    omega
  · refine .pair ?_ ?_ h
    · simp only [isHighSurrogate, Bool.and_eq_true, decide_eq_true_eq]
      omega
    · simp only [isLowSurrogate, Bool.and_eq_true, decide_eq_true_eq]
      omega

theorem paired_units (text : List Char) : Paired (units text) := by
  induction text with
  | nil => exact .nil
  | cons c text ih =>
    rw [units_cons]
    exact ih.charUnits_append c

/-- Units that spell a text, unless a surrogate is alone. -/
theorem Paired.exists_units {us : List Nat} (h : Paired us) (small : ∀ u ∈ us, u < 0x10000) :
    ∃ text, units text = us := by
  induction h with
  | nil => exact ⟨[], rfl⟩
  | @single u us alone _ ih =>
    obtain ⟨text, same⟩ := ih fun v mem => small v (List.mem_cons_of_mem _ mem)
    refine ⟨Char.ofNat u :: text, ?_⟩
    rw [units_cons, charUnits_ofNat (small u List.mem_cons_self) alone, same]
    rfl
  | @pair high low us lead tail _ ih =>
    obtain ⟨text, same⟩ := ih fun v mem => small v (List.mem_cons_of_mem _ (List.mem_cons_of_mem _ mem))
    refine ⟨Char.ofNat (0x10000 + (high - 0xD800) * 0x400 + (low - 0xDC00)) :: text, ?_⟩
    rw [units_cons, charUnits_ofNat_pair lead tail, same]
    rfl

/-- Units spell a text exactly when every surrogate among them is half of a pair. -/
theorem exists_units_iff {us : List Nat} (small : ∀ u ∈ us, u < 0x10000) : (∃ text, units text = us) ↔ Paired us := by
  refine ⟨?_, fun h => h.exists_units small⟩
  rintro ⟨text, rfl⟩
  exact paired_units text

/-- What is read from units has them all in pairs. -/
theorem paired_of_ofUnits? {us : List Nat} {text : List Char} (h : ofUnits? us = some text) : Paired us := by
  fun_induction ofUnits? us generalizing text with
  | case1 => exact .nil
  | case2 u high v rest low ih =>
    obtain ⟨more, found, -⟩ := Option.map_eq_some_iff.1 h
    exact .pair high low (ih found)
  | case3 => cases h
  | case4 => cases h
  | case5 => cases h
  | case6 u us high low ih =>
    obtain ⟨more, found, -⟩ := Option.map_eq_some_iff.1 h
    exact .single (fun surrogate => (isSurrogate_iff.1 surrogate).elim high low) (ih found)

/-- The text that is read from units is the one that they spell. -/
theorem ofUnits?_eq_some_iff {us : List Nat} (small : ∀ u ∈ us, u < 0x10000) {text : List Char} :
    ofUnits? us = some text ↔ units text = us := by
  constructor
  · intro h
    obtain ⟨spelled, rfl⟩ := (paired_of_ofUnits? h).exists_units small
    rw [ofUnits?_units, Option.some.injEq] at h
    rw [h]
  · rintro rfl
    exact ofUnits?_units text

end ApiSurface.Text
