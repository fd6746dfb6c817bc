import ApiSurface.Proofs.Text.Clear

/-!
Readers that pass a literal at once. The readers of brackets go through a literal character by character and
count that they are inside; what they find is what a reader finds that goes on behind the closing quote, and
a list is its first piece and the items behind the comma. Main statements: `scanFrom_passOne`, `closeFrom_passOne`,
`items_eq`.
-/

namespace ApiSurface.Text

variable {β : Type} {opens stops stack cs rest : List Char} {c quote : Char}

/-! ### Passing one character or one literal -/

/-- The brackets open behind a literal, or behind the character `c`, and what is left there. -/
def passOne (opens stack : List Char) (c : Char) (cs : List Char) : Except BracketFault (List Char × List Char) :=
  if c = '"' ∨ c = '\'' then
    match throughQuote? c cs with
    | none => .error .unterminatedLiteral
    | some (_, rest) => .ok (stack, rest)
  else (Nesting.step opens ⟨stack, .outside⟩ c).map fun next => (next.stack, cs)

/-- What one character outside literals does to the open brackets. -/
theorem of_step {next : Nesting} (noQuote : ¬(c = '"' ∨ c = '\''))
    (h : Nesting.step opens ⟨stack, .outside⟩ c = .ok next) :
    next = ⟨c :: stack, .outside⟩ ∨
      (∃ bracket outer, stack = bracket :: outer ∧ closerOf bracket = c ∧ next = ⟨outer, .outside⟩) ∨
      next = ⟨stack, .outside⟩ := by
  simp only [Nesting.step, if_neg noQuote] at h
  split at h
  · exact .inl (Except.ok.inj h).symm
  · split at h
    · cases stack with
      | nil => cases h
      | cons bracket outer =>
        simp only at h
        split at h
        · rename_i closes
          exact .inr (.inl ⟨bracket, outer, rfl, closes, (Except.ok.inj h).symm⟩)
        · cases h
    · exact .inr (.inr (Except.ok.inj h).symm)

theorem eq_of_step {next : Nesting} (noQuote : ¬(c = '"' ∨ c = '\''))
    (h : Nesting.step opens ⟨stack, .outside⟩ c = .ok next) : next = ⟨next.stack, .outside⟩ := by
  rcases of_step noQuote h with rfl | ⟨_, _, -, -, rfl⟩ | rfl <;> rfl

/-- A reader that does nothing inside literals but to count them goes on behind the literal. -/
theorem eq_behind_literal {F : Nesting → List Char → Except BracketFault β}
    (ended : ∀ l, l ≠ .outside → F ⟨stack, l⟩ [] = .error .unterminatedLiteral)
    (goes : ∀ l, l ≠ .outside → ∀ c cs next, Nesting.step opens ⟨stack, l⟩ c = .ok next →
      F ⟨stack, l⟩ (c :: cs) = F next cs) (cs : List Char) :
    F ⟨stack, .inside quote⟩ cs =
      match throughQuote? quote cs with
      | none => .error .unterminatedLiteral
      | some (_, rest) => F ⟨stack, .outside⟩ rest := by
  fun_induction throughQuote? quote cs with
  | case1 => exact ended _ (by simp)
  | case2 c cs ih =>
    rw [goes _ (by simp) '\\' (c :: cs) ⟨stack, .escaped quote⟩ rfl,
      goes _ (by simp) c cs ⟨stack, .inside quote⟩ rfl, ih]
    cases throughQuote? quote cs <;> rfl
  | case3 cs last =>
    have empty : cs = [] := by
      cases cs with
      | nil => rfl
      | cons d cs => exact absurd rfl (last d cs rfl)
    subst empty
    rw [goes _ (by simp) '\\' [] ⟨stack, .escaped quote⟩ rfl]
    exact ended _ (by simp)
  | case4 cs _ noSlash =>
    exact goes _ (by simp) quote cs ⟨stack, .outside⟩ (by simp [Nesting.step, noSlash])
  | case5 c cs _ noSlash noQuote ih =>
    rw [goes _ (by simp) c cs ⟨stack, .inside quote⟩ (by simp [Nesting.step, noSlash, noQuote]), ih]
    cases throughQuote? quote cs <;> rfl

/-- A reader goes on behind a literal, or behind one character that is none of its stops. -/
theorem eq_behind_passOne {F : Nesting → List Char → Except BracketFault β}
    (ended : ∀ l, l ≠ .outside → F ⟨stack, l⟩ [] = .error .unterminatedLiteral)
    (goes : ∀ l, l ≠ .outside → ∀ c cs next, Nesting.step opens ⟨stack, l⟩ c = .ok next →
      F ⟨stack, l⟩ (c :: cs) = F next cs)
    (here : F ⟨stack, .outside⟩ (c :: cs) = Nesting.step opens ⟨stack, .outside⟩ c >>= fun next => F next cs) :
    F ⟨stack, .outside⟩ (c :: cs) = passOne opens stack c cs >>= fun found => F ⟨found.1, .outside⟩ found.2 := by
  rw [here, passOne]
  by_cases isQuote : c = '"' ∨ c = '\''
  · have inside : Nesting.step opens ⟨stack, .outside⟩ c = .ok ⟨stack, .inside c⟩ := by
      simp [Nesting.step, isQuote]
    rw [inside, ok_bind, eq_behind_literal ended goes, if_pos isQuote]
    cases throughQuote? c cs <;> rfl
  · rw [if_neg isQuote]
    cases step : Nesting.step opens ⟨stack, .outside⟩ c with
    | error fault => rfl
    | ok next =>
      rw [ok_bind, map_ok, ok_bind, ← eq_of_step isQuote step]

theorem scanFrom_cons (n : Nesting) (other : ¬(n = .top ∧ c ∈ stops)) :
    (scanFrom opens stops n (c :: cs)).map (·.2) =
      n.step opens c >>= fun next => (scanFrom opens stops next cs).map (·.2) := by
  rw [scanFrom, if_neg other]
  cases n.step opens c with
  | error fault => rfl
  | ok next =>
    simp only [ok_bind]
    cases scanFrom opens stops next cs <;> rfl

/-- The reader stops in front of a character, or goes on behind it or the literal that it begins. -/
theorem scanFrom_passOne (other : ¬(stack = [] ∧ c ∈ stops)) :
    (scanFrom opens stops ⟨stack, .outside⟩ (c :: cs)).map (·.2) =
      passOne opens stack c cs >>= fun found => (scanFrom opens stops ⟨found.1, .outside⟩ found.2).map (·.2) := by
  refine eq_behind_passOne (F := fun n cs => (scanFrom opens stops n cs).map (·.2)) ?_ ?_ (scanFrom_cons _ ?_)
  · intro l inside
    simp [scanFrom, Nesting.faultAtEnd?, inside, Except.map]
  · intro l inside c cs next step
    rw [scanFrom_cons _ fun stop => inside (congrArg Nesting.literal stop.1), step, ok_bind]
  · simpa [Nesting.top] using other

/-- What is left behind the closing bracket, which may have been the last character read. -/
def behindClose (wanted : Char) (n : Nesting) (cs : List Char) : Except BracketFault (List Char) :=
  if n.stack = [] then .ok cs else (closeFrom wanted n cs).map (·.2)

theorem behindClose_of_ne {wanted : Char} {n : Nesting} (deep : n.stack ≠ []) (cs : List Char) :
    behindClose wanted n cs = (closeFrom wanted n cs).map (·.2) := if_neg deep

theorem closeFrom_cons (wanted : Char) (n : Nesting) :
    (closeFrom wanted n (c :: cs)).map (·.2) = n.step brackets c >>= fun next => behindClose wanted next cs := by
  rw [closeFrom]
  cases n.step brackets c with
  | error fault => rfl
  | ok next =>
    simp only [ok_bind, behindClose]
    split
    · rfl
    · cases closeFrom wanted next cs <;> rfl

/-- The search for a closing bracket goes on behind a character or the literal that it begins, unless the bracket was
closed there. -/
theorem closeFrom_passOne {wanted : Char} (deep : stack ≠ []) :
    (closeFrom wanted ⟨stack, .outside⟩ (c :: cs)).map (·.2) =
      passOne brackets stack c cs >>= fun found => behindClose wanted ⟨found.1, .outside⟩ found.2 := by
  rw [← behindClose_of_ne deep]
  refine eq_behind_passOne ?_ ?_ ?_
  · intro l inside
    rw [behindClose_of_ne deep]
    simp [closeFrom, inside, Except.map]
  · intro l inside c cs next step
    rw [behindClose_of_ne deep, closeFrom_cons, step, ok_bind]
  · rw [behindClose_of_ne deep, closeFrom_cons]

/-- The outermost bracket stays the same until it is closed, by its own closing bracket. -/
theorem of_passOne {next : List Char} (deep : stack ≠ []) (h : passOne opens stack c cs = .ok (next, rest)) :
    (next ≠ [] ∧ next.getLast? = stack.getLast?) ∨
      (next = [] ∧ rest = cs ∧ stack.getLast?.map closerOf = some c) := by
  unfold passOne at h
  split at h
  · split at h
    · cases h
    · cases h
      exact .inl ⟨deep, rfl⟩
  · rename_i noQuote
    obtain ⟨after, step, same⟩ := map_eq_ok_iff.1 h
    cases same
    rcases of_step noQuote step with rfl | ⟨bracket, outer, rfl, closes, rfl⟩ | rfl
    · exact .inl ⟨by simp, List.getLast?_cons_of_ne_nil deep⟩
    · cases outer with
      | nil => exact .inr ⟨rfl, rfl, by simp [closes]⟩
      | cons bracket' outer => exact .inl ⟨by simp, (List.getLast?_cons_of_ne_nil (by simp)).symm⟩
    · exact .inl ⟨deep, rfl⟩

/-! ### Lists -/

/-- A piece of a list in front of the items behind it. -/
def keep (piece : List Char) (more : List (List Char)) : List (List Char) :=
  if (trim piece).isEmpty then more else trim piece :: more

theorem items_eq (cs : List Char) :
    items opens cs =
      scanFrom opens [','] .top cs >>= fun found =>
        match found.2 with
        | [] => .ok (keep found.1 [])
        | _ :: rest => (items opens rest).map (keep found.1) := by
  have kept (piece : List Char) (more : List (List Char)) :
      ((piece :: more).map trim).filter (!·.isEmpty) = keep piece ((more.map trim).filter (!·.isEmpty)) := by
    unfold keep
    split <;> simp_all
  simp only [items, segments]
  rw [segmentsFrom_eq]
  cases scanFrom opens [','] .top cs with
  | error fault => rfl
  | ok found =>
    obtain ⟨piece, rest⟩ := found
    cases rest with
    | nil => simpa using kept piece []
    | cons d rest =>
      simp only [ok_bind]
      cases segmentsFrom opens ',' .top rest with
      | error fault => rfl
      | ok more => simpa using kept piece more

end ApiSurface.Text
