/-!
Modifiers of classes and members. Fourteen of them have a keyword and are written, in a fixed order; the
other three only decide what is hidden. Main statements: a keyword names its modifier
(`ofKeyword?_keyword?`), and the set of the written modifiers is the visible part of a set
(`has_visible`).
-/

namespace ApiSurface

/-- One modifier. -/
inductive Modifier where
  | «public» | «protected» | «private» | abstract | static | final | transient | volatile
  | synchronized | native | strictfp | interface | annotationType | enum
  /-- Made by the compiler; like the next two never written. -/
  | synthetic | bridge | varargs
  deriving DecidableEq, Repr

namespace Modifier

/-- All modifiers in the order in which they are written. -/
def all : List Modifier :=
  [.public, .protected, .private, .abstract, .static, .final, .transient, .volatile, .synchronized,
    .native, .strictfp, .interface, .annotationType, .enum, .synthetic, .bridge, .varargs]

/-- The place in the order, which is also the bit that stands for the modifier in a set. -/
def index : Modifier → Nat
  | .public => 0 | .protected => 1 | .private => 2 | .abstract => 3 | .static => 4 | .final => 5
  | .transient => 6 | .volatile => 7 | .synchronized => 8 | .native => 9 | .strictfp => 10
  | .interface => 11 | .annotationType => 12 | .enum => 13 | .synthetic => 14 | .bridge => 15
  | .varargs => 16

/-- The keyword of a modifier that is written. -/
def keyword? : Modifier → Option String
  | .public => some "public"
  | .protected => some "protected"
  | .private => some "private"
  | .abstract => some "abstract"
  | .static => some "static"
  | .final => some "final"
  | .transient => some "transient"
  | .volatile => some "volatile"
  | .synchronized => some "synchronized"
  | .native => some "native"
  | .strictfp => some "strictfp"
  | .interface => some "interface"
  | .annotationType => some "annotation"
  | .enum => some "enum"
  | .synthetic | .bridge | .varargs => none

/-- The modifier that a word is the keyword of. -/
def ofKeyword? (word : String) : Option Modifier := all.find? (·.keyword? = some word)

theorem index_lt (m : Modifier) : m.index < 17 := by cases m <;> decide

theorem index_injective {m n : Modifier} (h : m.index = n.index) : m = n := by
  cases m <;> cases n <;> first | rfl | (simp [index] at h)

theorem mem_all (m : Modifier) : m ∈ all := by cases m <;> decide

/-- A keyword names its modifier and no other. -/
theorem ofKeyword?_keyword? {m : Modifier} {word : String} (h : m.keyword? = some word) :
    ofKeyword? word = some m := by
  cases m <;> simp only [keyword?, Option.some.injEq, reduceCtorEq] at h <;> subst h <;> decide

end Modifier

/-- A set of modifiers. -/
structure Modifiers where
  bits : BitVec 17
  deriving DecidableEq, Repr

namespace Modifiers

/-- No modifier. -/
def none : Modifiers := ⟨0⟩

/-- Whether the modifier is in the set. -/
def has (s : Modifiers) (m : Modifier) : Bool := s.bits.getLsbD m.index

/-- The set with one more modifier. -/
def insert (s : Modifiers) (m : Modifier) : Modifiers := ⟨s.bits ||| BitVec.twoPow 17 m.index⟩

/-- The set of the listed modifiers. -/
def ofList (ms : List Modifier) : Modifiers := ms.foldl insert none

/-- The modifiers of the set in the order in which they are written. -/
def toList (s : Modifiers) : List Modifier := Modifier.all.filter s.has

/-- The keywords of the set, in their order. -/
def keywords (s : Modifiers) : List String := s.toList.filterMap Modifier.keyword?

/-- The modifiers that are written. -/
def visible (s : Modifiers) : Modifiers := ofList (s.toList.filter (·.keyword?.isSome))

/-- Part of the interface that a class offers to others. -/
def isAccessible (s : Modifiers) : Bool := s.has .public || s.has .protected

/-- Not part of the interface, or there for the compiler only. -/
def isHidden (s : Modifiers) : Bool := !s.isAccessible || s.has .synthetic || s.has .bridge

/-! ### Laws -/

@[simp] theorem has_none (m : Modifier) : none.has m = false := by simp [has, none]

@[simp] theorem has_insert (s : Modifiers) (m n : Modifier) :
    (s.insert m).has n = (s.has n || decide (m = n)) := by
  have small := n.index_lt
  by_cases same : m = n
  · subst same
    simp [has, insert, small]
  · have apart : m.index ≠ n.index := fun h => same (Modifier.index_injective h)
    simp [has, insert, same, apart]

theorem has_foldl_insert (ms : List Modifier) (s : Modifiers) (n : Modifier) :
    (ms.foldl insert s).has n = (s.has n || decide (n ∈ ms)) := by
  induction ms generalizing s with
  | nil => simp
  | cons m ms ih => simp [ih, Bool.or_assoc, eq_comm]

@[simp] theorem has_ofList (ms : List Modifier) (n : Modifier) :
    (ofList ms).has n = decide (n ∈ ms) := by
  simp [ofList, has_foldl_insert]

/-- Sets with the same modifiers are equal. -/
theorem ext_has {s t : Modifiers} (h : ∀ m, s.has m = t.has m) : s = t := by
  cases s with
  | mk a =>
    cases t with
    | mk b =>
      congr 1
      apply BitVec.eq_of_getLsbD_eq
      intro i small
      have named : ∀ i < 17, ∃ m ∈ Modifier.all, m.index = i := by decide
      obtain ⟨m, -, rfl⟩ := named i small
      exact h m

theorem mem_toList {s : Modifiers} {m : Modifier} : m ∈ s.toList ↔ s.has m := by
  simp [toList, Modifier.mem_all]

/-- The visible part holds the modifiers that have a keyword. -/
theorem has_visible (s : Modifiers) (m : Modifier) :
    s.visible.has m = (s.has m && m.keyword?.isSome) := by
  simp [visible, mem_toList, Bool.decide_and]

end Modifiers

end ApiSurface
