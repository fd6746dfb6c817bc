import Mathlib.Logic.Relation
import ApiSurface.Proofs.JavaType.Lexical

/-!
Scopes inside others. A variable is looked up anew wherever a bound names it, and never where the bound was
declared. So a nested scope leaves a text alone if it declares none of the names in it and none that their
bounds lead to (`Erasure.erase_nest`). Where the bounds lead to a name that is declared again, they go on
from the new declaration (`Erasure.replace_nest_of_leads`), which is how a method changes what a variable of
its class stands for (`Erasure.erase_nest_ne`).
-/

namespace ApiSurface

open ApiSurface.Text

namespace Erasure

variable {scope other : Erasure} {passed : List (List Char)} {name last bound : List Char}

/-! ### The end of the bounds -/

/-- Bounds without an end lead to the class of all objects after any number of steps. -/
theorem follow_of_endless (endless : ∀ passed last, ¬ scope.Follows passed name last) (steps : Nat) :
    scope.follow steps name = objectName := by
  induction steps generalizing name with
  | zero =>
    unfold Erasure.follow
    split
    · rename_i free
      exact absurd (.stop free) (endless [] name)
    · rfl
  | succ steps ih =>
    unfold Erasure.follow
    split
    · rename_i free
      exact absurd (.stop free) (endless [] name)
    · rename_i bound found
      exact ih fun passed last more => endless (name :: passed) last (.step found more)

theorem replace_of_endless (endless : ∀ passed last, ¬ scope.Follows passed name last) (filled : name ≠ []) :
    scope.replace name = objectName := by
  cases found : scope.lookup? name with
  | none => exact absurd (.stop found) (endless [] name)
  | some bound =>
    unfold Erasure.replace resolve?
    rw [if_neg (by simpa using filled), found, Option.map_some, Option.getD_some, follow_of_endless endless]

/-- A variable is replaced by what its bound is. -/
theorem replace_of_lookup? (found : scope.lookup? name = some bound) (filled : name ≠ []) (filled' : bound ≠ []) :
    scope.replace name = scope.replace bound := by
  by_cases ends : ∃ passed last, scope.Follows passed bound last
  · obtain ⟨passed, last, more⟩ := ends
    rw [more.replace filled', (Follows.step found more).replace filled]
  · have endless : ∀ passed last, ¬ scope.Follows passed bound last := by simpa using ends
    have endless' : ∀ passed last, ¬ scope.Follows passed name last := by
      intro passed last follows
      cases follows with
      | stop free => simp [free] at found
      | step found' more =>
        obtain rfl := Option.some.inj (found.symm.trans found')
        exact endless _ _ more
    rw [replace_of_endless endless filled', replace_of_endless endless' filled]

/-! ### Scopes that agree -/

/-- Two scopes that bind each of some names to the same, and it to another one of these names. -/
structure AgreeOn (names : Set (List Char)) (scope other : Erasure) : Prop where
  same : ∀ name ∈ names, other.lookup? name = scope.lookup? name
  closed : ∀ name ∈ names, ∀ bound, scope.lookup? name = some bound → bound ∈ names

namespace AgreeOn

variable {names : Set (List Char)}

theorem symm (h : AgreeOn names scope other) : AgreeOn names other scope :=
  ⟨fun name mem => (h.same name mem).symm,
    fun name mem bound found => h.closed name mem bound ((h.same name mem).symm.trans found)⟩

theorem follows (h : AgreeOn names scope other) (mem : name ∈ names) (follows : scope.Follows passed name last) :
    other.Follows passed name last := by
  induction follows with
  | stop free => exact .stop ((h.same _ mem).trans free)
  | step found more ih => exact .step ((h.same _ mem).trans found) (ih (h.closed _ mem _ found))

/-- The names are replaced by the same. -/
theorem replace (h : AgreeOn names scope other) (mem : name ∈ names) : other.replace name = scope.replace name := by
  by_cases filled : name = []
  · subst filled
    rfl
  · by_cases ends : ∃ passed last, scope.Follows passed name last
    · obtain ⟨passed, last, way⟩ := ends
      rw [way.replace filled, (h.follows mem way).replace filled]
    · have endless : ∀ passed last, ¬ scope.Follows passed name last := by simpa using ends
      have endless' : ∀ passed last, ¬ other.Follows passed name last := fun passed last way =>
        endless passed last (h.symm.follows mem way)
      rw [replace_of_endless endless filled, replace_of_endless endless' filled]

end AgreeOn

/-! ### Names in a text -/

/-- A name that stands in a text by itself. -/
structure IsNameIn (name text : List Char) : Prop where
  filled : name ≠ []
  chars : ∀ c ∈ name, isNameChar c
  word : IsWordOf name text

/-- Texts are replaced by the same if the names in them are. -/
theorem replaceAll_congr {t : List Char} (same : ∀ word, IsNameIn word t → other.replace word = scope.replace word) :
    other.replaceAll [] t = scope.replaceAll [] t := by
  -- the induction is on what is left, after what ends in no character of a name and the part of a name read
  suffices walk : ∀ before name, (∀ c ∈ before.getLast?, isNameChar c = false) → (∀ c ∈ name, isNameChar c) →
      (∀ word, IsNameIn word (before ++ name ++ t) → other.replace word = scope.replace word) →
      other.replaceAll name t = scope.replaceAll name t from
    walk [] [] (by simp) (by simp) (by simpa using same)
  clear same
  have part {before name after : List Char} (apart : ∀ c ∈ before.getLast?, isNameChar c = false)
      (chars : ∀ c ∈ name, isNameChar c) (ends : ∀ c ∈ after.head?, isNameChar c = false)
      (same : ∀ word, IsNameIn word (before ++ name ++ after) → other.replace word = scope.replace word) :
      other.replace name = scope.replace name := by
    by_cases filled : name = []
    · subst filled
      rfl
    · exact same name ⟨filled, chars, before, after, rfl, apart, ends⟩
  induction t with
  | nil =>
    intro before name apart chars same
    exact part apart chars (by simp) same
  | cons c t ih =>
    intro before name apart chars same
    rw [replaceAll, replaceAll]
    split
    · rename_i more
      refine ih before (name ++ [c]) apart (fun d mem => ?_) (by simpa using same)
      rcases List.mem_append.1 mem with mem | mem
      · exact chars d mem
      · obtain rfl := List.mem_singleton.1 mem
        exact more
    · rename_i ends
      rw [part apart chars (by simpa using ends) same,
        ih (before ++ name ++ [c]) [] (by simpa using ends) (by simp) (by simpa using same)]

/-! ### Nested scopes -/

/-- The names that a list of type parameters declares. -/
def declaredNames (parameters : Option (List Char)) : List (List Char) :=
  (parameters.elim [] bindingsOf).map Prod.fst

/-- A nested scope does not change what a name is bound to that it does not declare. -/
theorem lookup?_nest {parameters : Option (List Char)} (free : name ∉ declaredNames parameters) :
    (scope.nest parameters).lookup? name = scope.lookup? name := by
  cases parameters with
  | none => rfl
  | some list =>
    have outside : (bindingsOf list).reverse.find? (fun entry => entry.1 == name) = none := by
      rw [List.find?_eq_none]
      intro entry mem same
      exact free (List.mem_map.2 ⟨entry, List.mem_reverse.1 mem, eq_of_beq same⟩)
    simp [lookup?, nest, outside]

/-- The second name is the bound of the first one, or the bound of another one on this way. -/
def LeadsTo (scope : Erasure) : List Char → List Char → Prop :=
  Relation.TransGen fun name bound => scope.lookup? name = some bound

/-- **A nested scope leaves other variables alone.** A text is erased in a nested scope as it is outside if it names
no variable that is declared there, and the bounds of the names in it lead to none of these variables either. -/
theorem erase_nest {parameters : Option (List Char)} {text : List Char}
    (free : ∀ word, IsNameIn word (stripGenerics text) → word ∉ declaredNames parameters)
    (stay : ∀ word, IsNameIn word (stripGenerics text) →
      ∀ name, scope.LeadsTo word name → name ∉ declaredNames parameters) :
    (scope.nest parameters).erase text = scope.erase text := by
  let names : Set (List Char) := { name | ∃ word, IsNameIn word (stripGenerics text) ∧
    (word = name ∨ scope.LeadsTo word name) }
  have agree : AgreeOn names scope (scope.nest parameters) := by
    refine ⟨?_, ?_⟩
    · rintro name ⟨word, inText, rfl | leads⟩
      · exact lookup?_nest (free word inText)
      · exact lookup?_nest (stay word inText name leads)
    · rintro name ⟨word, inText, rfl | leads⟩ bound found
      · exact ⟨word, inText, .inr (.single found)⟩
      · exact ⟨word, inText, .inr (.tail leads found)⟩
  rw [erase_eq, erase_eq]
  exact replaceAll_congr fun word inText => agree.replace ⟨word, inText, .inl rfl⟩

/-- The variables of a class: one is bounded by another one, which is bounded by a class. -/
def boundedByAnother : Erasure := empty.nest (some "<T extends U,U extends java.lang.Number>".toList)

theorem isNameIn_singleton {c : Char} (h : IsNameIn name [c]) : name = [c] := by
  obtain ⟨filled, -, before, after, whole, -, -⟩ := h
  have length := congrArg List.length whole
  have some := List.length_pos_iff.2 filled
  simp only [List.length_singleton, List.length_append] at length
  obtain rfl : before = [] := List.length_eq_zero_iff.1 (by omega)
  obtain rfl : after = [] := List.length_eq_zero_iff.1 (by omega)
  simpa using whole.symm

/-- A method with a variable `V` leaves `T` alone, which leads to `U`. -/
theorem erase_nest_boundedByAnother :
    (boundedByAnother.nest (some "<V extends T>".toList)).erase ['T'] = boundedByAnother.erase ['T'] ∧
      boundedByAnother.erase ['T'] = "java.lang.Number".toList := by
  have one (word : List Char) (inText : IsNameIn word (stripGenerics ['T'])) : word = ['T'] :=
    isNameIn_singleton inText
  have reached (name : List Char) (leads : boundedByAnother.LeadsTo ['T'] name) :
      name = ['U'] ∨ name = "java.lang.Number".toList := by
    have first : boundedByAnother.lookup? ['T'] = some ['U'] := by decide
    have second : boundedByAnother.lookup? ['U'] = some "java.lang.Number".toList := by decide
    have none : boundedByAnother.lookup? "java.lang.Number".toList = none := by decide
    induction leads with
    | single found => exact .inl (Option.some.inj (found.symm.trans first))
    | tail _ found ih =>
      rcases ih with rfl | rfl
      · exact .inr (Option.some.inj (found.symm.trans second))
      · cases found.symm.trans none
  have free : ∀ name ∈ [['T'], ['U'], "java.lang.Number".toList],
      name ∉ declaredNames (some "<V extends T>".toList) := by decide
  refine ⟨erase_nest (fun word inText => ?_) fun word inText name leads => ?_, by decide⟩
  · rw [one word inText]
    exact free _ (by simp)
  · rw [one word inText] at leads
    rcases reached name leads with rfl | rfl <;> exact free _ (by simp)

/-! ### Bounds that are captured -/

/-- Where bounds lead past names that are not declared again, the nested scope goes on from there. -/
theorem replace_nest_of_leads {parameters : Option (List Char)} {word : List Char} (filled : word ≠ [])
    (leads : Relation.ReflTransGen (fun name bound => bound ≠ [] ∧ name ∉ declaredNames parameters ∧
      scope.lookup? name = some bound) word name) :
    (scope.nest parameters).replace word = (scope.nest parameters).replace name := by
  induction leads using Relation.ReflTransGen.head_induction_on with
  | refl => rfl
  | head step more ih =>
    obtain ⟨filled', free, found⟩ := step
    rw [replace_of_lookup? ((lookup?_nest free).trans found) filled filled', ih filled']

/-- A method that declares `U` anew changes what `T` stands for, in a text without `U`. -/
theorem erase_nest_ne : declaredNames (some "<U>".toList) = [['U']] ∧ ¬['U'] <:+: ['T'] ∧
    boundedByAnother.erase ['T'] = "java.lang.Number".toList ∧
    (boundedByAnother.nest (some "<U>".toList)).erase ['T'] = "java.lang.Object".toList := by decide

end Erasure

end ApiSurface
