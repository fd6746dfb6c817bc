import Mathlib
import ApiSurface.Ordered.Map

/-!
Sets and maps as the listings that they are. Main statements: a set is the set of its elements
(`Set.ofList_toList`), and changing a map behind its last smaller key adds or changes the last entry
(`Map.place_of_greater`, `Map.place_of_last`).
-/

namespace ApiSurface.Ordered

/-- The elements of a set, inserted in their order, are the set. -/
theorem Set.ofList_toList {α : Type} [Ord α] [Std.TransOrd α] [Std.LawfulEqOrd α] (s : Set α) :
    Set.ofList s.toList = s :=
  Set.ext_mem fun _ => Set.mem_ofList

theorem Set.eq_empty {α : Type} [Ord α] {s : Set α} (h : s.isEmpty) : s = ∅ := by
  cases s
  simp only [Set.isEmpty, List.isEmpty_iff] at h
  subst h
  rfl

theorem Map.eq_empty {κ ν : Type} [Ord κ] {m : Map κ ν} (h : m.isEmpty) : m = ∅ := by
  cases m
  simp only [Map.isEmpty, List.isEmpty_iff] at h
  subst h
  rfl

variable {κ ν : Type} [Ord κ] [Std.TransOrd κ]

/-- A key behind all others gets an entry of its own at the end. -/
theorem Map.place_of_greater {k : κ} {change : Option ν → ν} {l : List (κ × ν)}
    (less : ∀ x ∈ l, compare x.1 k = .lt) : Map.place k change l = l ++ [(k, change none)] := by
  induction l with
  | nil => rfl
  | cons x l ih =>
    have greater : compare k x.1 = .gt := Std.OrientedCmp.gt_iff_lt.2 (less x (by simp))
    simp [Map.place, greater, ih fun y mem => less y (by simp [mem])]

/-- The last key has its entry changed. -/
theorem Map.place_of_last {k : κ} {v : ν} {change : Option ν → ν} {l : List (κ × ν)}
    (less : ∀ x ∈ l, compare x.1 k = .lt) :
    Map.place k change (l ++ [(k, v)]) = l ++ [(k, change (some v))] := by
  induction l with
  | nil => simp [Map.place, Std.ReflCmp.compare_self]
  | cons x l ih =>
    have greater : compare k x.1 = .gt := Std.OrientedCmp.gt_iff_lt.2 (less x (by simp))
    simp [Map.place, greater, ih fun y mem => less y (by simp [mem])]

end ApiSurface.Ordered
