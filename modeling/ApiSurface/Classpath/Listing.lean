/-!
Names that are given out one after another and can be given out again. Main statements: giving one out and
going back change nothing about which names there are (`all_next`, `all_rewind`).
-/

namespace ApiSurface

/-- Names, of which some were given out. -/
structure Listing where
  /-- The names that were given out, the last one first. -/
  passed : List String
  ahead : List String
  deriving DecidableEq, Repr

namespace Listing

/-- All these names are ahead. -/
def ofNames (names : List String) : Listing := ⟨[], names⟩

/-- No names. -/
def empty : Listing := ofNames []

/-- All names, in the order in which they are given out. -/
def all (l : Listing) : List String := l.passed.reverse ++ l.ahead

/-- Whether a name is ahead. -/
def hasNext (l : Listing) : Bool := !l.ahead.isEmpty

/-- The next name, and the listing once it was given out. -/
def next? (l : Listing) : Option (String × Listing) :=
  match l.ahead with
  | [] => none
  | name :: ahead => some (name, ⟨name :: l.passed, ahead⟩)

/-- The listing before any name was given out. -/
def rewind (l : Listing) : Listing := ofNames l.all

/-- Giving out a name changes nothing about which names there are. -/
theorem all_next {l next : Listing} {name : String} (h : l.next? = some (name, next)) :
    next.all = l.all := by
  unfold next? at h
  split at h
  · cases h
  · rename_i rest found
    cases h
    simp [all, found]

/-- Going back changes nothing about which names there are. -/
@[simp] theorem all_rewind (l : Listing) : l.rewind.all = l.all := rfl

@[simp] theorem all_ofNames (names : List String) : (ofNames names).all = names := rfl

/-- There is a next name exactly if one is ahead. -/
theorem hasNext_eq_isSome_next? (l : Listing) : l.hasNext = l.next?.isSome := by
  unfold hasNext next?
  split <;> simp_all

end Listing

end ApiSurface
