import ApiSurface.Ordered.Set

/-!
Finite maps in ascending order of their keys. A map is the list of its entries, each key once and in
order, so maps with the same entries are equal.
-/

namespace ApiSurface.Ordered

/-- A finite map, listed in ascending order of the keys. -/
structure Map (κ ν : Type) [Ord κ] where
  toList : List (κ × ν)
  ascending : toList.Pairwise fun a b => compare a.1 b.1 = .lt

namespace Map

variable {κ ν : Type} [Ord κ]

instance [DecidableEq κ] [DecidableEq ν] : DecidableEq (Map κ ν) := fun s t =>
  if h : s.toList = t.toList then isTrue (by cases s; cases t; cases h; rfl)
  else isFalse fun same => h (by rw [same])

instance [Repr κ] [Repr ν] : Repr (Map κ ν) := ⟨fun s n => reprPrec s.toList n⟩

/-- The map without entries. -/
def empty : Map κ ν := ⟨[], .nil⟩

instance : EmptyCollection (Map κ ν) := ⟨empty⟩

instance : Inhabited (Map κ ν) := ⟨empty⟩

/-- Whether the map has no entries. -/
def isEmpty (m : Map κ ν) : Bool := m.toList.isEmpty

/-- The keys in ascending order. -/
def keys (m : Map κ ν) : List κ := m.toList.map Prod.fst

/-- The value at a key. -/
def get? (m : Map κ ν) (k : κ) : Option ν :=
  (m.toList.find? fun entry => compare entry.1 k == .eq).map Prod.snd

/-- Changes what an ascending list of entries has at a key. -/
def place (k : κ) (change : Option ν → ν) : List (κ × ν) → List (κ × ν)
  | [] => [(k, change none)]
  | entry :: more =>
    match compare k entry.1 with
    | .lt => (k, change none) :: entry :: more
    | .eq => (entry.1, change (some entry.2)) :: more
    | .gt => entry :: place k change more

theorem key_of_mem_place {k x : κ} {v : ν} {change : Option ν → ν} {l : List (κ × ν)}
    (h : (x, v) ∈ place k change l) : x = k ∨ ∃ w, (x, w) ∈ l := by
  induction l with
  | nil =>
    simp only [place, List.mem_singleton, Prod.mk.injEq] at h
    exact .inl h.1
  | cons entry more ih =>
    simp only [place] at h
    split at h
    · rcases List.mem_cons.1 h with h | h
      · exact .inl (Prod.mk.inj h).1
      · exact .inr ⟨v, h⟩
    · rcases List.mem_cons.1 h with h | h
      · exact .inr ⟨entry.2, by simp [(Prod.mk.inj h).1]⟩
      · exact .inr ⟨v, List.mem_cons_of_mem _ h⟩
    · rcases List.mem_cons.1 h with h | h
      · exact .inr ⟨v, by simp [h]⟩
      · rcases ih h with h | ⟨w, h⟩
        · exact .inl h
        · exact .inr ⟨w, List.mem_cons_of_mem _ h⟩

variable [Std.TransOrd κ]

theorem ascending_place {k : κ} {change : Option ν → ν} {l : List (κ × ν)}
    (h : l.Pairwise fun a b => compare a.1 b.1 = .lt) :
    (place k change l).Pairwise fun a b => compare a.1 b.1 = .lt := by
  induction l with
  | nil => simp [place]
  | cons entry more ih =>
    have ⟨first, rest⟩ := List.pairwise_cons.1 h
    simp only [place]
    split
    · rename_i before
      refine List.pairwise_cons.2 ⟨fun x mem => ?_, h⟩
      rcases List.mem_cons.1 mem with rfl | mem
      · exact before
      · exact Std.TransCmp.lt_trans before (first x mem)
    · exact List.pairwise_cons.2 ⟨first, rest⟩
    · rename_i after
      refine List.pairwise_cons.2 ⟨fun x mem => ?_, ih rest⟩
      rcases key_of_mem_place (x := x.1) (v := x.2) mem with same | ⟨w, mem⟩
      · rw [same]
        exact Std.OrientedCmp.gt_iff_lt.1 after
      · exact first (x.1, w) mem

/-- The map with the value at a key changed; a key without value gets one. -/
def alter (m : Map κ ν) (k : κ) (change : Option ν → ν) : Map κ ν :=
  ⟨place k change m.toList, ascending_place m.ascending⟩

/-- The map with this value at the key. -/
def insert (m : Map κ ν) (k : κ) (v : ν) : Map κ ν := m.alter k fun _ => v

/-- The map of the listed entries; of two entries with one key the later counts. -/
def ofList (l : List (κ × ν)) : Map κ ν := l.foldl (fun m (k, v) => m.insert k v) empty

end Map

end ApiSurface.Ordered
