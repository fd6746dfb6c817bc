import ApiSurface.Ordered.Map

/-!
Modules: what a module is called, holds, offers and needs. All listings are sets and maps in ascending
order, so that two descriptions of one module are equal.
-/

namespace ApiSurface

/-- A module that another one needs. -/
structure Requires where
  name : String
  mandated : Bool
  /-- Whoever needs the module gets this one as well. -/
  transitive : Bool
  synthetic : Bool
  deriving DecidableEq, Repr

namespace Requires

/-- By name, then by the three properties; what has a property comes later. -/
def order : Requires → Requires → Ordering :=
  compareLex (compareOn Requires.name)
    (compareLex (compareOn Requires.mandated)
      (compareLex (compareOn Requires.transitive) (compareOn Requires.synthetic)))

instance : Ord Requires := ⟨order⟩

instance : Std.TransOrd Requires := by
  unfold Std.TransOrd
  exact inferInstanceAs (Std.TransCmp (compareLex (compareOn Requires.name)
    (compareLex (compareOn Requires.mandated)
      (compareLex (compareOn Requires.transitive) (compareOn Requires.synthetic)))))

instance : Std.LawfulEqOrd Requires where
  eq_of_compare {a b} h := by
    have h : order a b = .eq := h
    simp only [order, compareLex, compareOn, Ordering.then_eq_eq, Std.compare_eq_iff_eq] at h
    cases a
    cases b
    simp_all

end Requires

/-- A module. -/
structure ModuleDescription where
  name : String
  version : Option String
  mainClass : Option String
  packages : Ordered.Set String
  /-- Packages of the module that it does not offer. -/
  conceals : Ordered.Set String
  /-- The packages offered, and to which modules; to all if none is named. -/
  exports : Ordered.Map String (Ordered.Set String)
  requires : Ordered.Set Requires
  /-- The services offered, and by which classes. -/
  provides : Ordered.Map String (Ordered.Set String)
  uses : Ordered.Set String
  deriving DecidableEq, Repr

namespace ModuleDescription

/-- A module of which only the name is known. -/
def named (name : String) : ModuleDescription :=
  ⟨name, none, none, ∅, ∅, ∅, ∅, ∅, ∅⟩

/-- Whether nothing is listed. -/
def isBare (m : ModuleDescription) : Bool :=
  m.packages.isEmpty && m.conceals.isEmpty && m.exports.isEmpty && m.requires.isEmpty &&
    m.provides.isEmpty && m.uses.isEmpty

end ModuleDescription

end ApiSurface
