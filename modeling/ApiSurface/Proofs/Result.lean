/-!
Results that are a fault or a value. Main statement: a step and what comes after it give a value exactly
when both do (`bind_eq_ok_iff`).
-/

namespace ApiSurface

variable {ε α β : Type}

@[simp] theorem ok_bind (a : α) (f : α → Except ε β) : ((.ok a : Except ε α) >>= f) = f a := rfl

@[simp] theorem error_bind (e : ε) (f : α → Except ε β) : ((.error e : Except ε α) >>= f) = .error e := rfl

@[simp] theorem pure_eq_ok_except (a : α) : (pure a : Except ε α) = .ok a := rfl

@[simp] theorem map_ok (f : α → β) (a : α) : (Except.ok a : Except ε α).map f = .ok (f a) := rfl

/-- A step and what comes after it give a value exactly when both do. -/
theorem bind_eq_ok_iff {x : Except ε α} {f : α → Except ε β} {b : β} :
    (x >>= f) = .ok b ↔ ∃ a, x = .ok a ∧ f a = .ok b := by
  cases x with
  | error e => simp
  | ok a => simp

theorem map_eq_ok_iff {x : Except ε α} {f : α → β} {b : β} :
    x.map f = .ok b ↔ ∃ a, x = .ok a ∧ f a = b := by
  cases x <;> simp [Except.map]

/-- Another fault is no value either. -/
theorem mapError_eq_ok_iff {x : Except ε α} {f : ε → β} {a : α} : x.mapError f = .ok a ↔ x = .ok a := by
  cases x with
  | error e => exact ⟨nofun, nofun⟩
  | ok b =>
    have same : (Except.ok b : Except ε α).mapError f = .ok b := rfl
    rw [same, Except.ok.injEq, Except.ok.injEq]

/-- Steps that all give a value. -/
theorem mapM_ok {f : α → Except ε β} {g : α → β} {l : List α} (h : ∀ a ∈ l, f a = .ok (g a)) :
    l.mapM f = .ok (l.map g) := by
  induction l with
  | nil => rfl
  | cons a l ih =>
    rw [List.mapM_cons, h a (by simp), ih fun b mem => h b (by simp [mem])]
    rfl

/-- Steps over a list give values exactly when each of them gives its own. -/
theorem mapM_eq_ok_iff {f : α → Except ε β} {l : List α} {bs : List β} :
    l.mapM f = .ok bs ↔ l.map f = bs.map .ok := by
  induction l generalizing bs with
  | nil => cases bs <;> simp
  | cons a l ih =>
    rw [List.mapM_cons, bind_eq_ok_iff, List.map_cons]
    constructor
    · rintro ⟨b, first, h⟩
      obtain ⟨more, later, h⟩ := bind_eq_ok_iff.1 h
      obtain rfl := Except.ok.inj h
      rw [first, ih.1 later, List.map_cons]
    · intro same
      obtain ⟨b, more, rfl, first, later⟩ := List.map_eq_cons_iff.1 same.symm
      refine ⟨b, first.symm, ?_⟩
      rw [ih.2 later.symm]
      rfl

/-- Steps that give the same values give the same lists. -/
theorem mapM_eq_ok_of_imp {f g : α → Except ε β} {l : List α} {bs : List β} (h : l.mapM f = .ok bs)
    (imp : ∀ a ∈ l, ∀ b, f a = .ok b → g a = .ok b) : l.mapM g = .ok bs := by
  induction l generalizing bs with
  | nil => exact h
  | cons a l ih =>
    rw [List.mapM_cons] at h ⊢
    obtain ⟨b, first, h⟩ := bind_eq_ok_iff.1 h
    obtain ⟨more, later, h⟩ := bind_eq_ok_iff.1 h
    rw [imp a (by simp) b first, ih later fun c mem => imp c (by simp [mem])]
    exact h

theorem toOption_eq_some_iff {x : Except ε α} {a : α} : x.toOption = some a ↔ x = .ok a := by
  cases x <;> simp [Except.toOption]

/-- Results are alike, whatever their faults are, when they give the same value. -/
theorem toOption_eq_iff {x y : Except ε α} : x.toOption = y.toOption ↔ ∀ a, x = .ok a ↔ y = .ok a := by
  refine ⟨fun same a => by rw [← toOption_eq_some_iff, ← toOption_eq_some_iff, same],
    fun same => Option.ext fun a => ?_⟩
  rw [toOption_eq_some_iff, toOption_eq_some_iff, same a]

/-- Steps that all gave a value have one each. -/
theorem exists_mem_of_mapM {f : α → Except ε β} {l : List α} {bs : List β} (h : l.mapM f = .ok bs) {a : α}
    (mem : a ∈ l) : ∃ b ∈ bs, f a = .ok b := by
  induction l generalizing bs with
  | nil => cases mem
  | cons c l ih =>
    rw [List.mapM_cons] at h
    obtain ⟨b, first, h⟩ := bind_eq_ok_iff.1 h
    obtain ⟨more, later, h⟩ := bind_eq_ok_iff.1 h
    obtain rfl := Except.ok.inj h
    rcases List.mem_cons.1 mem with rfl | mem
    · exact ⟨b, by simp, first⟩
    · obtain ⟨d, inMore, same⟩ := ih later mem
      exact ⟨d, by simp [inMore], same⟩

/-- Every value is that of a step. -/
theorem exists_of_mem_mapM {f : α → Except ε β} {l : List α} {bs : List β} (h : l.mapM f = .ok bs) {b : β}
    (mem : b ∈ bs) : ∃ a ∈ l, f a = .ok b := by
  induction l generalizing bs with
  | nil =>
    obtain rfl := Except.ok.inj h
    cases mem
  | cons a l ih =>
    rw [List.mapM_cons] at h
    obtain ⟨c, first, h⟩ := bind_eq_ok_iff.1 h
    obtain ⟨more, later, h⟩ := bind_eq_ok_iff.1 h
    obtain rfl := Except.ok.inj h
    rcases List.mem_cons.1 mem with rfl | mem
    · exact ⟨a, by simp, first⟩
    · obtain ⟨d, inList, same⟩ := ih later mem
      exact ⟨d, by simp [inList], same⟩

end ApiSurface
