/-!
Which entry owns each name. The first entry that claims a name owns it for good. Main statements: whoever
claims a name that nobody owns gets it (`owner?_claim`), a claim takes no name from its owner
(`owner?_claim_of_owned`), of several names those are gained that nobody owned before
(`mem_gained_claimAll`), and these have the new owner (`owner?_claimAll`).
-/

namespace ApiSurface

/-- The names that are owned, each with the number of the entry that owns it. -/
structure Shadow where
  owners : List (String × Nat)
  deriving DecidableEq, Repr

namespace Shadow

/-- Nobody owns a name. -/
def empty : Shadow := ⟨[]⟩

instance : Inhabited Shadow := ⟨empty⟩

/-- The entry that owns a name. -/
def owner? (s : Shadow) (name : String) : Option Nat := s.owners.lookup name

/-- How many names are owned. -/
def size (s : Shadow) : Nat := s.owners.length

/-- Whether nobody owns a name. -/
def isEmpty (s : Shadow) : Bool := s.owners.isEmpty

/-- Claims a name for an entry, and tells whether the entry gained it. -/
def claim (s : Shadow) (name : String) (entry : Nat) : Bool × Shadow :=
  if (s.owner? name).isSome then (false, s) else (true, ⟨(name, entry) :: s.owners⟩)

/-- Claims names for an entry, and gives those that the entry gained, in their order. -/
def claimAll (s : Shadow) : List String → Nat → List String × Shadow
  | [], _ => ([], s)
  | name :: more, entry =>
    match s.claim name entry with
    | (true, s) =>
      let (gained, s) := s.claimAll more entry
      (name :: gained, s)
    | (false, s) => s.claimAll more entry

/-! ### Laws -/

/-- Who claims a name that nobody owns gets it. -/
theorem owner?_claim {s : Shadow} {name : String} (free : s.owner? name = none) (entry : Nat) :
    (s.claim name entry).2.owner? name = some entry := by
  simp only [claim, free, Option.isSome_none, Bool.false_eq_true, if_false]
  simp [owner?]

/-- A claim takes no name from its owner. -/
theorem owner?_claim_of_owned {s : Shadow} {name : String} {owner : Nat}
    (owned : s.owner? name = some owner) (other : String) (entry : Nat) :
    (s.claim other entry).2.owner? name = some owner := by
  unfold claim
  split
  · exact owned
  · rename_i free
    have differ : (name == other) = false := by
      apply beq_false_of_ne
      rintro rfl
      simp [owned] at free
    simpa [owner?, List.lookup_cons, differ] using owned

/-- A claim of one name leaves the other names alone. -/
theorem owner?_claim_of_ne {s : Shadow} {name other : String} (differ : name ≠ other) (entry : Nat) :
    (s.claim other entry).2.owner? name = s.owner? name := by
  unfold claim
  split
  · rfl
  · simp [owner?, List.lookup_cons, beq_false_of_ne differ]

/-- Claims take no name from its owner. -/
theorem owner?_claimAll_of_owned {s : Shadow} {name : String} {owner : Nat}
    (owned : s.owner? name = some owner) (names : List String) (entry : Nat) :
    (s.claimAll names entry).2.owner? name = some owner := by
  induction names generalizing s with
  | nil => exact owned
  | cons other more ih =>
    have kept := owner?_claim_of_owned owned other entry
    rw [claimAll]
    split <;> rename_i same <;> rw [same] at kept <;> exact ih kept

/-- Of several names those are gained that nobody owned before. -/
theorem mem_gained_claimAll {s : Shadow} {names : List String} {entry : Nat} {name : String} :
    name ∈ (s.claimAll names entry).1 ↔ name ∈ names ∧ s.owner? name = none := by
  induction names generalizing s with
  | nil => simp [claimAll]
  | cons other more ih =>
    rw [claimAll]
    by_cases owned : (s.owner? other).isSome
    · simp only [claim, owned, if_true, ih, List.mem_cons]
      constructor
      · rintro ⟨listed, free⟩
        exact ⟨.inr listed, free⟩
      · rintro ⟨rfl | listed, free⟩
        · simp [free] at owned
        · exact ⟨listed, free⟩
    · have free : s.owner? other = none := by simpa using owned
      have others : name ≠ other → (s.claim other entry).2.owner? name = s.owner? name :=
        fun differ => owner?_claim_of_ne differ entry
      have gets := owner?_claim free entry
      simp only [claim, owned, Bool.false_eq_true, if_false] at others gets ⊢
      simp only [List.mem_cons, ih]
      by_cases same : name = other
      · subst same
        simp [free]
      · simp [same, others same]

/-- Names that nobody owned before have the new owner, and all others the one they had. -/
theorem owner?_claimAll (s : Shadow) (names : List String) (entry : Nat) (name : String) :
    (s.claimAll names entry).2.owner? name =
      (s.owner? name).or (if name ∈ names then some entry else none) := by
  induction names generalizing s with
  | nil => simp [claimAll]
  | cons other more ih =>
    have after : (s.claimAll (other :: more) entry).2 = ((s.claim other entry).2.claimAll more entry).2 := by
      rw [claimAll]
      split <;> rename_i same <;> rw [same]
    rw [after, ih]
    by_cases same : name = other
    · subst same
      cases owned : s.owner? name with
      | none => simp [owner?_claim owned]
      | some owner => simp [owner?_claim_of_owned owned]
    · simp [owner?_claim_of_ne same, same]

end Shadow

end ApiSurface
