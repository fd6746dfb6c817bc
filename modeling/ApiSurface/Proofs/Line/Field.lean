import ApiSurface.Proofs.Line.Accepted

/-!
Lines of fields and their constants. Everything but the constant comes from the declaration, which is the line up to
the constant. Main statements: tokens are taken off a declaration whatever constant follows it
(`modifiers_append`), what is read of a line is what its declaration and its constant say
(`parseMember_field_iff`), and so lines that differ in their constants give fields that differ in these only
(`exists_of_beforeConstant`).
-/

namespace ApiSurface.Line

open ApiSurface.Text

/-! ### Tokens in front of more text -/

variable {line cs t rest more : List Char}

theorem atSpace_append (h : AtSpace rest) (next : AtSpace more) : AtSpace (rest ++ more) := by
  cases rest with
  | nil => exact next
  | cons c rest =>
    intro d mem
    exact h d (by simpa using mem)

/-- A token is taken off a text in front of more. -/
theorem Taken.append (h : Taken cs t rest) (next : AtSpace more) : Taken (cs ++ more) t (rest ++ more) := by
  refine ⟨?_, h.token, atSpace_append h.atSpace next⟩
  have filled : dropSpaces cs ≠ [] := by
    rw [h.whole]
    intro none
    exact h.token.filled (List.append_eq_nil_iff.1 none).1
  rw [← List.append_assoc, ← h.whole, dropSpaces, List.dropWhile_append, if_neg]
  · rfl
  · rw [List.isEmpty_iff]
    exact filled

theorem Taken.length_lt (h : Taken cs t rest) : rest.length < cs.length := by
  have total := length_dropSpaces_le cs
  have filled := List.length_pos_iff.2 h.token.filled
  rw [h.whole, List.length_append] at total
  omega

/-- Modifiers in front of a token are read whatever follows the token. -/
theorem modifiersFrom_append {type behind : List Char} {limit limit' : Nat} {start set : Modifiers}
    (read : modifiersFrom line limit start cs = .ok (set, rest)) (fits : cs.length ≤ limit)
    (typed : Taken rest type behind) (next : AtSpace more) (other : List Char) (fits' : cs.length ≤ limit') :
    modifiersFrom other limit' start (cs ++ more) = .ok (set, rest ++ more) := by
  induction limit generalizing start cs limit' with
  | zero =>
    cases read
    have short := typed.length_lt
    omega
  | succ limit ih =>
    rw [modifiersFrom] at read
    cases first : token? line cs with
    | error m =>
      rw [first] at read
      cases read
    | ok found =>
      obtain ⟨word, left⟩ := found
      rw [first] at read
      cases word with
      | none =>
        cases read
        rw [typed.token?_eq line] at first
        cases first
      | some word =>
        have taken := taken_of_token? first
        have short := taken.length_lt
        obtain ⟨k, rfl⟩ : ∃ k, limit' = k + 1 := ⟨limit' - 1, by omega⟩
        rw [modifiersFrom, (taken.append next).token?_eq other]
        dsimp only at read ⊢
        cases keyword : Modifier.ofKeyword? (String.ofList word) with
        | some m =>
          rw [keyword] at read
          exact ih read (by omega) (by omega)
        | none =>
          rw [keyword] at read
          cases read
          rfl

theorem modifiers_append {type behind : List Char} {set : Modifiers} (read : modifiers line cs = .ok (set, rest))
    (typed : Taken rest type behind) (next : AtSpace more) (other : List Char) :
    modifiers other (cs ++ more) = .ok (set, rest ++ more) := by
  have fits : cs.length ≤ (cs ++ more).length := by simp
  exact modifiersFrom_append read (Nat.le_refl _) typed next other fits

/-! ### Fields -/

/-- A line is its declaration, and its constant behind the mark if it has one. -/
theorem exists_of_beforeConstant_append (line : List Char) :
    ∃ more, line = beforeConstant line ++ more ∧ AtSpace more := by
  cases cut : cutAt? constantMark line with
  | none => exact ⟨[], by simp [beforeConstant, cut], atSpace_nil⟩
  | some parts =>
    obtain ⟨front, constant⟩ := parts
    refine ⟨constantMark ++ constant, ?_, atSpace_cons _⟩
    rw [← List.append_assoc]
    simpa [beforeConstant, cut] using eq_of_cutAt cut

/-- A field is what the declaration and the constant on its line say. -/
theorem parseMember_field_iff {className : String} {m : Member} :
    parseMember .field className line = .ok m ↔ ∃ set type name, Declares (beforeConstant line) set type name ∧
      m = ⟨className, String.ofList name, set, [], .field (String.ofList type) (constantOn? line)⟩ := by
  obtain ⟨more, whole, next⟩ := exists_of_beforeConstant_append line
  -- the tag and the modifiers of the line are those of its declaration
  have head {set : Modifiers} {type simple : List Char} (declares : Declares (beforeConstant line) set type simple) :
      ∃ tag cs rest, token line MemberKind.field.tag line = .ok (tag, cs) ∧ modifiers line cs = .ok (set, rest) := by
    obtain ⟨tag, cs, rest, behind, after, tagged, marked, typed, -, -⟩ := declares
    have first := tagged.append next
    rw [← whole] at first
    exact ⟨tag, cs ++ more, rest ++ more, first.token_eq _ _, modifiers_append marked typed next line⟩
  rw [parseMember_eq_ok_iff]
  constructor
  · rintro ⟨tag, cs, set, rest, name, detail, tagged, marked, inner, rfl⟩
    obtain ⟨set', type, simple, declares, rfl, rfl⟩ := fieldRest_eq_ok_iff.1 inner
    obtain ⟨tag', cs', rest', tagged', marked'⟩ := head declares
    obtain ⟨rfl, rfl⟩ := Prod.mk.inj (Except.ok.inj (tagged.symm.trans tagged'))
    obtain ⟨rfl, rfl⟩ := Prod.mk.inj (Except.ok.inj (marked.symm.trans marked'))
    exact ⟨set, type, simple, declares, rfl⟩
  · rintro ⟨set, type, name, declares, rfl⟩
    obtain ⟨tag, cs, rest, tagged, marked⟩ := head declares
    have inner := fieldRest_eq_ok_iff.2 ⟨set, type, name, declares, rfl, rfl⟩
    exact ⟨tag, cs, set, rest, _, _, tagged, marked, inner, rfl⟩

/-- Lines with one declaration give fields that differ in their constants only. -/
theorem exists_of_beforeConstant {className : String} {other : List Char} {m : Member}
    (same : beforeConstant line = beforeConstant other) (read : parseMember .field className line = .ok m) :
    ∃ n, parseMember .field className other = .ok n ∧ n.withoutConstant = m.withoutConstant := by
  obtain ⟨set, type, name, declares, rfl⟩ := parseMember_field_iff.1 read
  rw [same] at declares
  exact ⟨_, parseMember_field_iff.2 ⟨set, type, name, declares, rfl⟩, rfl⟩

end ApiSurface.Line
