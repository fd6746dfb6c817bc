/-!
Finite sets in ascending order. A set is the list of its elements, each once and in order, so sets with
the same elements are equal. Main statements: an inserted element is there and nothing else changes
(`mem_insert`), and a set is determined by its elements (`ext_mem`).
-/

namespace ApiSurface.Ordered

/-- A finite set, listed in ascending order. -/
structure Set (α : Type) [Ord α] where
  toList : List α
  ascending : toList.Pairwise fun a b => compare a b = .lt

namespace Set

variable {α : Type} [Ord α]

instance [DecidableEq α] : DecidableEq (Set α) := fun s t =>
  if h : s.toList = t.toList then isTrue (by cases s; cases t; cases h; rfl)
  else isFalse fun same => h (by rw [same])

instance [Repr α] : Repr (Set α) := ⟨fun s n => reprPrec s.toList n⟩

/-- The set without elements. -/
def empty : Set α := ⟨[], .nil⟩

instance : EmptyCollection (Set α) := ⟨empty⟩

instance : Inhabited (Set α) := ⟨empty⟩

/-- Whether the set has no elements. -/
def isEmpty (s : Set α) : Bool := s.toList.isEmpty

/-- Puts an element into an ascending list, unless it is there. -/
def place (a : α) : List α → List α
  | [] => [a]
  | b :: more =>
    match compare a b with
    | .lt => a :: b :: more
    | .eq => b :: more
    | .gt => b :: place a more

theorem mem_place_of {a x : α} {l : List α} (h : x ∈ place a l) : x = a ∨ x ∈ l := by
  induction l with
  | nil => simpa [place] using h
  | cons b more ih =>
    simp only [place] at h
    split at h
    · simpa using h
    · exact .inr h
    · simp only [List.mem_cons] at h ⊢
      rcases h with h | h
      · exact .inr (.inl h)
      · rcases ih h with h | h
        · exact .inl h
        · exact .inr (.inr h)

variable [Std.TransOrd α]

theorem ascending_place {a : α} {l : List α} (h : l.Pairwise fun a b => compare a b = .lt) :
    (place a l).Pairwise fun a b => compare a b = .lt := by
  induction l with
  | nil => simp [place]
  | cons b more ih =>
    have ⟨first, rest⟩ := List.pairwise_cons.1 h
    simp only [place]
    split
    · rename_i before
      refine List.pairwise_cons.2 ⟨fun x mem => ?_, h⟩
      rcases List.mem_cons.1 mem with rfl | mem
      · exact before
      · exact Std.TransCmp.lt_trans before (first x mem)
    · exact h
    · rename_i after
      refine List.pairwise_cons.2 ⟨fun x mem => ?_, ih rest⟩
      rcases mem_place_of mem with rfl | mem
      · exact Std.OrientedCmp.gt_iff_lt.1 after
      · exact first x mem

/-- The set with one more element. -/
def insert (s : Set α) (a : α) : Set α := ⟨place a s.toList, ascending_place s.ascending⟩

/-- The set of the listed elements. -/
def ofList (l : List α) : Set α := l.foldl insert empty

/-- Whether the element is in the set. -/
def contains [BEq α] (s : Set α) (a : α) : Bool := s.toList.contains a

/-! ### Laws -/

section Laws

variable [Std.LawfulEqOrd α]

omit [Std.TransOrd α] in
theorem mem_place {a x : α} {l : List α} : x ∈ place a l ↔ x = a ∨ x ∈ l := by
  refine ⟨mem_place_of, fun h => ?_⟩
  induction l with
  | nil => simpa [place] using h
  | cons b more ih =>
    simp only [place]
    split
    · simpa using h
    · rename_i same
      have same := Std.LawfulEqOrd.eq_of_compare same
      subst same
      simpa using h
    · simp only [List.mem_cons] at h ⊢
      rcases h with h | h | h
      · exact .inr (ih (.inl h))
      · exact .inl h
      · exact .inr (ih (.inr h))

/-- An inserted element is there, and nothing else changes. -/
theorem mem_insert {s : Set α} {a x : α} : x ∈ (s.insert a).toList ↔ x = a ∨ x ∈ s.toList :=
  mem_place

theorem mem_foldl_insert {l : List α} {s : Set α} {x : α} :
    x ∈ (l.foldl insert s).toList ↔ x ∈ l ∨ x ∈ s.toList := by
  induction l generalizing s with
  | nil => simp
  | cons a l ih =>
    simp only [List.foldl_cons, ih, mem_insert, List.mem_cons]
    constructor
    · rintro (h | h | h)
      · exact .inl (.inr h)
      · exact .inl (.inl h)
      · exact .inr h
    · rintro ((h | h) | h)
      · exact .inr (.inl h)
      · exact .inl h
      · exact .inr (.inr h)

/-- The set of a list has the elements of the list. -/
theorem mem_ofList {l : List α} {x : α} : x ∈ (ofList l).toList ↔ x ∈ l := by
  rw [ofList, mem_foldl_insert]
  simp [empty]

theorem eq_of_ascending {l m : List α} (hl : l.Pairwise fun a b => compare a b = .lt)
    (hm : m.Pairwise fun a b => compare a b = .lt) (same : ∀ x, x ∈ l ↔ x ∈ m) : l = m := by
  induction l generalizing m with
  | nil =>
    cases m with
    | nil => rfl
    | cons b m => exact absurd ((same b).2 (by simp)) (by simp)
  | cons a l ih =>
    cases m with
    | nil => exact absurd ((same a).1 (by simp)) (by simp)
    | cons b m =>
      have ⟨firstL, restL⟩ := List.pairwise_cons.1 hl
      have ⟨firstM, restM⟩ := List.pairwise_cons.1 hm
      have notBoth {x y : α} (xy : compare x y = .lt) (yx : compare y x = .lt) : False := by
        have below : compare x x = .lt := Std.TransCmp.lt_trans xy yx
        have self : compare x x = .eq := Std.ReflCmp.compare_self
        rw [self] at below
        cases below
      have heads : a = b := by
        rcases List.mem_cons.1 ((same a).1 (by simp)) with h | h
        · exact h
        · rcases List.mem_cons.1 ((same b).2 (by simp)) with h' | h'
          · exact h'.symm
          · exact (notBoth (firstM a h) (firstL b h')).elim
      subst heads
      congr 1
      refine ih restL restM fun x => ⟨fun mem => ?_, fun mem => ?_⟩
      · rcases List.mem_cons.1 ((same x).1 (List.mem_cons_of_mem _ mem)) with rfl | h
        · exact (notBoth (firstL _ mem) (firstL _ mem)).elim
        · exact h
      · rcases List.mem_cons.1 ((same x).2 (List.mem_cons_of_mem _ mem)) with rfl | h
        · exact (notBoth (firstM _ mem) (firstM _ mem)).elim
        · exact h

/-- Sets with the same elements are equal. -/
theorem ext_mem {s t : Set α} (same : ∀ x, x ∈ s.toList ↔ x ∈ t.toList) : s = t := by
  have h := eq_of_ascending s.ascending t.ascending same
  cases s
  cases t
  cases h
  rfl

end Laws

end Set

end ApiSurface.Ordered
