import ApiSurface.Proofs.JavaType.Nested
import ApiSurface.Proofs.JavaType.ParameterText

/-!
What erasure ends in, in any scope that lists of type parameters build, also where bounds run in circles or hide each
other. The steps that are counted are enough for every chain of bounds, since a chain that does not end comes back to
a name that it has passed. An erased text holds no type arguments, no dots of a variable number of arguments, and no
variable; so there is nothing left to erase in it. Main statement: `Erasure.erase_variableFree`.
-/

namespace ApiSurface

open ApiSurface.Text

namespace Erasure

variable {scope : Erasure} {passed : List (List Char)} {name last bound again : List Char}

/-! ### Chains of bounds -/

/-- One name is bound to the other. -/
def Binds (scope : Erasure) (name bound : List Char) : Prop := scope.lookup? name = some bound

theorem exists_of_lookup? (found : scope.lookup? name = some bound) :
    ∃ entry ∈ scope.bindings, entry.1 = name ∧ entry.2 = bound := by
  obtain ⟨entry, here, rfl⟩ := Option.map_eq_some_iff.1 found
  exact ⟨entry, List.mem_of_find?_eq_some here, by simpa using List.find?_some here, rfl⟩

theorem mem_names_of_lookup? (found : scope.lookup? name = some bound) : name ∈ scope.bindings.map Prod.fst := by
  obtain ⟨entry, mem, rfl, -⟩ := exists_of_lookup? found
  exact List.mem_map_of_mem mem

/-- A chain that ends is a way to its end. -/
theorem exists_follows (chain : Relation.TransGen scope.Binds name last) (free : scope.lookup? last = none) :
    ∃ passed, scope.Follows passed name last := by
  induction chain using Relation.TransGen.head_induction_on with
  | single found => exact ⟨_, .step found (.stop free)⟩
  | head found _ ih =>
    obtain ⟨passed, more⟩ := ih
    exact ⟨_, .step found more⟩

/-- What lies on a chain is nearer to its end. -/
theorem Follows.behind (h : scope.Follows passed name last) (chain : Relation.TransGen scope.Binds name again) :
    ∃ rest, rest.length < passed.length ∧ scope.Follows rest again last := by
  induction chain with
  | single found =>
    cases h with
    | stop free => cases free.symm.trans found
    | step found' more =>
      obtain rfl := Option.some.inj (found'.symm.trans found)
      exact ⟨_, Nat.lt_succ_self _, more⟩
  | tail _ found ih =>
    obtain ⟨rest, shorter, follows⟩ := ih
    cases follows with
    | stop free => cases free.symm.trans found
    | step found' more =>
      obtain rfl := Option.some.inj (found'.symm.trans found)
      exact ⟨_, by simp only [List.length_cons] at shorter; omega, more⟩

theorem Follows.chain (h : scope.Follows passed name last) : Relation.ReflTransGen scope.Binds name last := by
  induction h with
  | stop _ => exact .refl
  | step found _ ih => exact .head found ih

/-- Behind the end of a chain nothing is bound. -/
theorem Follows.free (h : scope.Follows passed name last) : scope.lookup? last = none := by
  induction h with
  | stop free => exact free
  | step _ _ ih => exact ih

/-- A chain that runs into a circle has no end. -/
theorem endless_of_circle (chain : Relation.ReflTransGen scope.Binds name again)
    (circle : Relation.TransGen scope.Binds again again) (passed : List (List Char)) (last : List Char) :
    ¬scope.Follows passed name last := by
  intro follows
  have reached : ∃ rest, scope.Follows rest again last := by
    rcases Relation.reflTransGen_iff_eq_or_transGen.1 chain with rfl | chain
    · exact ⟨passed, follows⟩
    · obtain ⟨rest, -, behind⟩ := follows.behind chain
      exact ⟨rest, behind⟩
  obtain ⟨rest, there⟩ := reached
  obtain ⟨shorter, less, back⟩ := there.behind circle
  have same := there.unique back
  rw [same] at less
  exact absurd less (lt_irrefl _)

/-- Every chain of bounds ends, or comes back to a name that it has passed: there are only so many names. -/
theorem ends_or_circles (scope : Erasure) (name : List Char) :
    (∃ passed last, scope.Follows passed name last) ∨
      ∃ again, Relation.ReflTransGen scope.Binds name again ∧ Relation.TransGen scope.Binds again again := by
  -- the induction is on the number of names that are not passed yet, each of which leads to this one
  suffices walk : ∀ (seen : List (List Char)) (name : List Char), seen.Nodup →
      seen ⊆ scope.bindings.map Prod.fst → (∀ m ∈ seen, Relation.TransGen scope.Binds m name) →
      (∃ passed last, scope.Follows passed name last) ∨
        ∃ again, Relation.ReflTransGen scope.Binds name again ∧ Relation.TransGen scope.Binds again again from
    walk [] name List.nodup_nil (by simp) (by simp)
  intro seen
  induction left : scope.bindings.length - seen.length using Nat.strong_induction_on generalizing seen with
  | _ n ih =>
    intro name nodup known behind
    cases found : scope.lookup? name with
    | none => exact .inl ⟨[], name, .stop found⟩
    | some bound =>
      by_cases again : name ∈ seen
      · exact .inr ⟨name, .refl, behind name again⟩
      · have nodup' : (name :: seen).Nodup := List.nodup_cons.2 ⟨again, nodup⟩
        have known' := List.cons_subset.2 ⟨mem_names_of_lookup? found, known⟩
        have behind' : ∀ m ∈ name :: seen, Relation.TransGen scope.Binds m bound :=
          List.forall_mem_cons.2 ⟨.single found, fun m mem => (behind m mem).tail found⟩
        have fits := (nodup'.subperm known').length_le
        simp only [List.length_cons, List.length_map] at fits
        have fewer : scope.bindings.length - (name :: seen).length < n := by
          simp only [List.length_cons]
          omega
        have next := ih _ fewer (name :: seen) rfl bound nodup' known' behind'
        rcases next with ⟨passed, last, more⟩ | ⟨m, chain, circle⟩
        · exact .inl ⟨_, last, .step found more⟩
        · exact .inr ⟨m, .head found chain, circle⟩

/-- A name without a bound stands for nothing else. -/
theorem resolve?_eq_none_iff : scope.resolve? name = none ↔ scope.lookup? name = none := by
  rw [resolve?, Option.map_eq_none_iff]

/-- The steps are enough for a chain that ends. -/
theorem Follows.resolve? (h : scope.Follows passed name last) (found : scope.lookup? name = some bound) :
    scope.resolve? name = some last := by
  have enough : passed.length ≤ scope.bindings.length := by
    have fewer := h.nodup.subperm h.subset
    simpa using fewer.length_le
  rw [Erasure.resolve?, found, Option.map_some, h.follow enough]

theorem resolve?_of_endless (endless : ∀ passed last, ¬scope.Follows passed name last)
    (found : scope.lookup? name = some bound) : scope.resolve? name = some objectName := by
  rw [Erasure.resolve?, found, Option.map_some, follow_of_endless endless]

/-! ### Words -/

/-- A text without some character stands on one side of it, if it stands in a text with it. -/
theorem split_around {c : Char} {front part back a b : List Char} (free : c ∉ part)
    (h : front ++ part ++ back = a ++ c :: b) :
    (∃ rest, a = front ++ part ++ rest ∧ back = rest ++ c :: b) ∨
      ∃ rest, front = a ++ c :: rest ∧ b = rest ++ part ++ back := by
  rcases List.append_eq_append_iff.1 h with ⟨rest, whole, same⟩ | ⟨rest, whole, same⟩
  · exact .inl ⟨rest, whole, same⟩
  · cases rest with
    | nil => exact .inl ⟨[], by simpa using whole.symm, same.symm⟩
    | cons d rest =>
      obtain ⟨rfl, rfl⟩ := List.cons.inj same
      rcases List.append_eq_append_iff.1 whole with ⟨middle, -, inside⟩ | ⟨middle, before, inside⟩
      · exact absurd (by simp [inside]) free
      · cases middle with
        | nil =>
          have starts : part = c :: rest := inside.symm
          exact absurd (by simp [starts]) free
        | cons e middle =>
          obtain ⟨rfl, rfl⟩ := List.cons.inj inside
          exact .inr ⟨middle, before, rfl⟩

/-- A text is words with other characters between them. -/
theorem words_induction {P : List Char → Prop} (word : ∀ w, (∀ c ∈ w, isNameChar c) → P w)
    (cons : ∀ w c t, (∀ d ∈ w, isNameChar d) → isNameChar c = false → P t → P (w ++ c :: t))
    (t : List Char) : P t := by
  induction length : t.length using Nat.strong_induction_on generalizing t with
  | _ n ih =>
    have whole := List.takeWhile_append_dropWhile (p := isNameChar) (l := t)
    have chars : ∀ c ∈ t.takeWhile isNameChar, isNameChar c := fun c mem => List.mem_takeWhile_imp mem
    cases rest : t.dropWhile isNameChar with
    | nil =>
      rw [rest, List.append_nil] at whole
      rw [← whole]
      exact word _ chars
    | cons c more =>
      have other : isNameChar c = false := by
        have first := List.head?_dropWhile_not isNameChar t
        rw [rest] at first
        simpa using first
      rw [rest] at whole
      have shorter : more.length < n := by
        rw [← length, ← whole, List.length_append, List.length_cons]
        omega
      rw [← whole]
      exact cons _ c more chars other (ih _ shorter more rfl)

theorem IsNameIn.eq_of_nameChars {word t : List Char} (h : IsNameIn word t) (chars : ∀ c ∈ t, isNameChar c) :
    word = t := by
  obtain ⟨-, -, before, after, rfl, apart, ends⟩ := h
  have first : before = [] := by
    rcases List.eq_nil_or_concat' before with rfl | ⟨front, c, rfl⟩
    · rfl
    · have other := apart c (by simp)
      rw [chars c (by simp)] at other
      cases other
  have rest : after = [] := by
    cases after with
    | nil => rfl
    | cons c after =>
      have other := ends c (by simp)
      rw [chars c (by simp)] at other
      cases other
  rw [first, rest, List.nil_append, List.append_nil]

/-- A word does not go on behind a character that is part of none. -/
theorem IsNameIn.of_append_cons {word a b : List Char} {c : Char} (other : isNameChar c = false)
    (h : IsNameIn word (a ++ c :: b)) : IsNameIn word a ∨ IsNameIn word b := by
  obtain ⟨filled, chars, before, after, whole, apart, ends⟩ := h
  rcases split_around (notMem_of_nameChars chars other) whole.symm with ⟨rest, rfl, rfl⟩ | ⟨rest, rfl, rfl⟩
  · refine .inl ⟨filled, chars, before, rest, rfl, apart, fun d mem => ?_⟩
    exact ends d (by simp [Option.mem_def.1 mem])
  · refine .inr ⟨filled, chars, rest, after, rfl, fun d mem => ?_, ends⟩
    apply apart d
    cases rest with
    | nil => cases mem
    | cons e rest => simpa [List.getLast?_append] using mem

/-! ### Stripped texts -/

/-- The dots of a variable number of arguments. -/
def dots : List Char := "...".toList

/-- Dots that are left stood there before, as many of them. -/
theorem prefix_of_spellArrays (n : Nat) (t : List Char) (h : List.replicate n '.' <+: spellArrays t) :
    List.replicate n '.' <+: t := by
  fun_induction spellArrays t generalizing n with
  | case1 t ih =>
    cases n with
    | zero => exact List.nil_prefix
    | succ n =>
      rw [List.replicate_succ, List.cons_prefix_cons] at h
      exact absurd h.1 (by decide)
  | case2 c t _ ih =>
    cases n with
    | zero => exact List.nil_prefix
    | succ n =>
      rw [List.replicate_succ, List.cons_prefix_cons] at h ⊢
      exact ⟨h.1, ih n h.2⟩
  | case3 => exact h

theorem not_dots_spellArrays (t : List Char) : ¬dots <:+: spellArrays t := by
  have pairs (rest : List Char) : dots <:+: '[' :: ']' :: rest → dots <:+: rest := by
    simp [List.infix_cons_iff, dots]
  fun_induction spellArrays t with
  | case1 t ih => exact fun inside => ih (pairs _ inside)
  | case2 c t single ih =>
    intro inside
    rcases List.infix_cons_iff.1 inside with first | later
    · have same : dots = List.replicate 3 '.' := rfl
      have unchanged : spellArrays (c :: t) = c :: spellArrays t := spellArrays.eq_2 c t single
      rw [same, ← unchanged] at first
      obtain ⟨rest, whole⟩ := prefix_of_spellArrays 3 _ first
      obtain ⟨rfl, rfl⟩ := List.cons.inj whole
      exact single rest rfl rfl
    · exact ih later
  | case3 => simp [dots]

theorem notMem_dropArguments (depth : Nat) (t : List Char) : '<' ∉ dropArguments depth t := by
  fun_induction dropArguments depth t <;> simp_all [Ne.symm]

theorem mem_spellArrays {c : Char} {t : List Char} (h : c ∈ spellArrays t) : c ∈ t ∨ c = '[' ∨ c = ']' := by
  fun_induction spellArrays t <;> simp_all <;> tauto

/-- Without angle brackets that open, and without dots, there is nothing to strip. -/
theorem stripGenerics_eq_self {t : List Char} (noAngle : '<' ∉ t) (noDots : ¬dots <:+: t) : stripGenerics t = t := by
  have drops : dropArguments 0 t = t := by
    clear noDots
    induction t with
    | nil => rfl
    | cons c t ih =>
      have ⟨differ, behind⟩ := List.ne_and_not_mem_of_not_mem_cons noAngle
      simp [dropArguments, Ne.symm differ, ih behind]
  rw [stripGenerics, drops]
  clear noAngle drops
  fun_induction spellArrays t with
  | case1 t ih => exact absurd ⟨[], t, rfl⟩ noDots
  | case2 c t _ ih => rw [ih fun inside => noDots (List.infix_cons inside)]
  | case3 => rfl

/-! ### Scopes of names -/

/-- A scope whose variables are simple names, and whose bounds are names with dots. -/
def Named (scope : Erasure) : Prop :=
  ∀ entry ∈ scope.bindings, IsLettered entry.1 ∧ ∃ text, SpellsName text entry.2

namespace Named

variable (named : scope.Named)
include named

/-- A variable is a simple name. -/
theorem isLettered_of_lookup? (found : scope.lookup? name = some bound) : IsLettered name := by
  obtain ⟨entry, mem, rfl, -⟩ := exists_of_lookup? found
  exact (named entry mem).1

/-- The class of all objects is no variable, since its name has dots. -/
theorem objectName_free : scope.lookup? objectName = none := by
  rw [Option.eq_none_iff_forall_ne_some]
  intro bound found
  exact (named.isLettered_of_lookup? found).noDot (by decide)

/-- What a name is replaced by is no variable. -/
theorem lookup?_replace (filled : name ≠ []) : scope.lookup? (scope.replace name) = none := by
  by_cases ends : ∃ passed last, scope.Follows passed name last
  · obtain ⟨passed, last, way⟩ := ends
    rw [way.replace filled]
    exact way.free
  · have endless : ∀ passed last, ¬scope.Follows passed name last := by simpa using ends
    rw [replace_of_endless endless filled]
    exact named.objectName_free

/-- What a name is replaced by is a name, without dots that mean anything. -/
theorem replace_cases (name : List Char) :
    scope.replace name = name ∨ (∀ c ∈ scope.replace name, isNameChar c) ∧ ¬dots <:+: scope.replace name := by
  have spells {text plain : List Char} (h : SpellsName text plain) :
      (∀ c ∈ plain, isNameChar c) ∧ ¬dots <:+: plain := by
    have same : spellArrays plain = plain := by simpa [spellArrays] using h.spelled []
    exact ⟨h.chars, same ▸ not_dots_spellArrays plain⟩
  refine replace_eq_or (P := fun t => (∀ c ∈ t, isNameChar c) ∧ ¬dots <:+: t) (by decide) ?_ name
  intro entry mem
  obtain ⟨-, text, bound⟩ := named entry mem
  exact spells bound

theorem replace_chars (chars : ∀ c ∈ name, isNameChar c) : ∀ c ∈ scope.replace name, isNameChar c := by
  rcases named.replace_cases name with kept | ⟨chars', -⟩
  · rwa [kept]
  · exact chars'

/-- No word of a text in which variables are replaced is a variable. -/
theorem lookup?_of_word {word t : List Char} (inText : IsNameIn word (scope.replaceAll [] t)) :
    scope.lookup? word = none := by
  have one {w : List Char} (chars : ∀ c ∈ w, isNameChar c) (h : IsNameIn word (scope.replace w)) :
      scope.lookup? word = none := by
    have same := h.eq_of_nameChars (named.replace_chars chars)
    have filled : w ≠ [] := by
      rintro rfl
      exact h.filled same
    rw [same]
    exact named.lookup?_replace filled
  induction t using words_induction with
  | word w chars =>
    rw [replaceAll_of_name chars, List.nil_append] at inText
    exact one chars inText
  | cons w c t chars other ih =>
    rw [replaceAll_append_cons other, replaceAll_of_name chars, List.nil_append] at inText
    rcases inText.of_append_cons other with here | later
    · exact one chars here
    · exact ih later

/-- No dots that mean anything come up where variables are replaced. -/
theorem not_dots_replaceAll {t : List Char} (noDots : ¬dots <:+: t) : ¬dots <:+: scope.replaceAll [] t := by
  have one {w : List Char} (noDots : ¬dots <:+: w) : ¬dots <:+: scope.replace w := by
    rcases named.replace_cases w with kept | ⟨-, none⟩
    · rwa [kept]
    · exact none
  induction t using words_induction with
  | word w chars =>
    rw [replaceAll_of_name chars, List.nil_append]
    exact one noDots
  | cons w c t chars other ih =>
    have noDot : c ∉ dots := by
      intro mem
      have all : ∀ d ∈ dots, isNameChar d := by decide
      rw [all c mem] at other
      cases other
    rw [replaceAll_append_cons other, replaceAll_of_name chars, List.nil_append]
    rintro ⟨front, back, whole⟩
    rcases split_around noDot whole with ⟨rest, same, -⟩ | ⟨rest, -, same⟩
    · exact one (fun inside => noDots (inside.trans (List.infix_append [] w (c :: t)))) ⟨front, rest, same.symm⟩
    · exact ih (fun inside => noDots (inside.trans ⟨w ++ [c], [], by simp⟩)) ⟨rest, back, same.symm⟩

/-- An erased text has nothing left to strip, and no variables. -/
theorem erased (t : List Char) : '<' ∉ scope.erase t ∧ ¬dots <:+: scope.erase t ∧
    ∀ word, IsNameIn word (scope.erase t) → scope.lookup? word = none := by
  rw [erase_eq]
  refine ⟨fun mem => ?_, named.not_dots_replaceAll (not_dots_spellArrays _), fun word => named.lookup?_of_word⟩
  have bounds : ∀ entry ∈ scope.bindings, ∀ c ∈ entry.2, c ≠ '<' := by
    intro entry inScope c inBound same
    obtain ⟨-, text, bound⟩ := named entry inScope
    exact notMem_of_nameChars (c := '<') bound.chars (by decide) (same ▸ inBound)
  have chars : ∀ c ∈ stripGenerics t, c ≠ '<' := by
    rintro c inText rfl
    rcases mem_spellArrays inText with inText | other
    · exact notMem_dropArguments 0 t inText
    · revert other
      decide
  exact forall_mem_replaceAll (by decide) bounds chars (by simp) '<' mem rfl

theorem erase_erase (t : List Char) : scope.erase (scope.erase t) = scope.erase t := by
  obtain ⟨noAngle, noDots, free⟩ := named.erased t
  calc scope.erase (scope.erase t)
      = scope.replaceAll [] (stripGenerics (scope.erase t)) := erase_eq _
    _ = scope.replaceAll [] (scope.erase t) := by rw [stripGenerics_eq_self noAngle noDots]
    _ = scope.erase t := by
      refine replaceAll_of_free fun word chars inText => Option.eq_none_iff_forall_ne_some.2 fun bound found => ?_
      have filled := (named.isLettered_of_lookup? found).filled
      rw [free word ⟨filled, chars, inText⟩] at found
      cases found

end Named

/-! ### Scopes that lists build -/

/-- A scope built from lists of type parameters, one inside of the other, and all that they declare in turn. -/
inductive Built : List (List Char × List Char) → Erasure → Prop
  | empty : Built [] .empty
  | without {declared scope} (outer : Built declared scope) : Built declared (scope.nest none)
  | nest {declared scope list inner} (outer : Built declared scope) (parameters : IsParameterList list inner) :
    Built (declared ++ inner) (scope.nest (some list))

/-- The last declaration of a name gives it this bound. -/
def BoundIn (declared : List (List Char × List Char)) (name bound : List Char) : Prop :=
  ∃ before after, declared = before ++ (name, bound) :: after ∧ name ∉ after.map Prod.fst

variable {declared : List (List Char × List Char)}

namespace Built

theorem bindings_eq (built : Built declared scope) : scope.bindings = declared.reverse := by
  induction built with
  | empty => rfl
  | without outer ih => exact ih
  | nest outer parameters ih => rw [Erasure.nest, bindingsOf_of_isParameterList parameters, List.reverse_append, ih]

theorem named (built : Built declared scope) : scope.Named := by
  have each : ∀ entry ∈ declared, IsLettered entry.1 ∧ ∃ text, SpellsName text entry.2 := by
    induction built with
    | empty => simp
    | without outer ih => exact ih
    | nest outer parameters ih =>
      obtain ⟨texts, -, all⟩ := parameters
      intro entry mem
      rcases List.mem_append.1 mem with mem | mem
      · exact ih entry mem
      · clear outer ih
        induction all with
        | nil => cases mem
        | cons first _ ih =>
          rcases List.mem_cons.1 mem with rfl | mem
          · exact first.names
          · exact ih (by simp [mem]) mem
  intro entry mem
  rw [built.bindings_eq, List.mem_reverse] at mem
  exact each entry mem

theorem lookup?_eq_none_iff (built : Built declared scope) :
    scope.lookup? name = none ↔ name ∉ declared.map Prod.fst := by
  rw [lookup?, Option.map_eq_none_iff, List.find?_eq_none, built.bindings_eq]
  constructor
  · intro none mem
    obtain ⟨entry, inList, same⟩ := List.mem_map.1 mem
    exact none entry (List.mem_reverse.2 inList) (by simp [same])
  · intro fresh entry mem same
    exact fresh (List.mem_map.2 ⟨entry, List.mem_reverse.1 mem, by simpa using same⟩)

/-- A variable is looked up in the last declaration of it. -/
theorem binds_iff (built : Built declared scope) : scope.Binds name bound ↔ BoundIn declared name bound := by
  have last (before after : List (List Char × List Char)) (fresh : name ∉ after.map Prod.fst) :
      (before ++ (name, bound) :: after).reverse.find? (fun entry => entry.1 == name) = some (name, bound) := by
    have none : after.reverse.find? (fun entry => entry.1 == name) = none := by
      rw [List.find?_eq_none]
      intro entry mem same
      exact fresh (List.mem_map.2 ⟨entry, List.mem_reverse.1 mem, by simpa using same⟩)
    simp [List.find?_append, none]
  rw [Binds, lookup?, built.bindings_eq]
  constructor
  · intro found
    obtain ⟨entry, here, rfl⟩ := Option.map_eq_some_iff.1 found
    obtain ⟨same, after, before, whole, fresh⟩ := List.find?_eq_some_iff_append.1 here
    have named : entry.1 = name := by simpa using same
    subst named
    refine ⟨before.reverse, after.reverse, ?_, ?_⟩
    · rw [← List.reverse_reverse declared, whole]
      simp
    · intro mem
      obtain ⟨other, inAfter, same⟩ := List.mem_map.1 mem
      have differ := fresh other (List.mem_reverse.1 inAfter)
      simp [same] at differ
  · rintro ⟨before, after, rfl, fresh⟩
    rw [last before after fresh]
    rfl

end Built

/-! ### Main statement -/

/-- **Erasure ends in a type without variables.** Let a scope be built from any lists of type parameters. A name
stands for something just if it is declared. A chain of bounds that ends is followed to its last name, however long
it is; a chain that runs into a circle stands for the class of all objects; and there are no others. Whatever text is
erased, no type arguments, no dots of a variable number of arguments and no variables are left, so that erasing it
again changes nothing. -/
theorem erase_variableFree (built : Built declared scope) :
    (∀ name, scope.resolve? name = none ↔ name ∉ declared.map Prod.fst) ∧
    (∀ name last, Relation.TransGen (BoundIn declared) name last → last ∉ declared.map Prod.fst →
      scope.resolve? name = some last) ∧
    (∀ name again, name ∈ declared.map Prod.fst → Relation.ReflTransGen (BoundIn declared) name again →
      Relation.TransGen (BoundIn declared) again again → scope.resolve? name = some objectName) ∧
    (∀ name ∈ declared.map Prod.fst,
      (∃ last, Relation.TransGen (BoundIn declared) name last ∧ last ∉ declared.map Prod.fst) ∨
        ∃ again, Relation.ReflTransGen (BoundIn declared) name again ∧
          Relation.TransGen (BoundIn declared) again again) ∧
    ∀ t, '<' ∉ scope.erase t ∧ ¬dots <:+: scope.erase t ∧
      (∀ word, IsNameIn word (scope.erase t) → word ∉ declared.map Prod.fst) ∧
      scope.erase (scope.erase t) = scope.erase t := by
  have same : BoundIn declared = scope.Binds := by
    funext name bound
    exact propext built.binds_iff.symm
  simp only [same, ← built.lookup?_eq_none_iff]
  have bound {name : List Char} (mem : name ∈ declared.map Prod.fst) :
      ∃ bound, scope.lookup? name = some bound := by
    rw [← Option.ne_none_iff_exists']
    exact fun free => built.lookup?_eq_none_iff.1 free mem
  refine ⟨fun _ => resolve?_eq_none_iff, ?_, ?_, ?_, ?_⟩
  · intro name last chain free
    obtain ⟨passed, way⟩ := exists_follows chain free
    obtain ⟨bound, found, -⟩ := Relation.TransGen.head'_iff.1 chain
    exact way.resolve? found
  · intro name again mem chain circle
    obtain ⟨bound, found⟩ := bound mem
    exact resolve?_of_endless (endless_of_circle chain circle) found
  · intro name mem
    obtain ⟨bound, found⟩ := bound mem
    rcases ends_or_circles scope name with ⟨passed, last, way⟩ | circle
    · refine .inl ⟨last, ?_, way.free⟩
      rcases Relation.reflTransGen_iff_eq_or_transGen.1 way.chain with rfl | chain
      · cases way.free.symm.trans found
      · exact chain
    · exact .inr circle
  · intro t
    obtain ⟨noAngle, noDots, free⟩ := built.named.erased t
    exact ⟨noAngle, noDots, free, built.named.erase_erase t⟩

/-- The scope of a class with two parameters that are bounded by each other, and of a method in it with one that
hides another one of the class. -/
def circularScope : Erasure :=
  (empty.nest (some "<T extends U,U extends T<?>,V>".toList)).nest
    (some "< V extends a.B<T[]>.C & D , W  extends V>".toList)

/-- What its lists declare. -/
def circularNames : List (List Char × List Char) :=
  [] ++ [(['T'], ['U']), (['U'], ['T']), (['V'], objectName)] ++ [(['V'], "a.B.C".toList), (['W'], ['V'])]

theorem built_circularScope : Built circularNames circularScope := by
  have all := List.Subset.refl brackets
  have clear {stops t : List Char} (walk : Nesting.top.through brackets stops t = some .top) :
      Balanced brackets t ∧ NoStop brackets stops t := (clear_iff_balanced all).1 walk
  have t : DeclaresParameter (trim "T extends U".toList) (['T'], ['U']) := by
    have shape : trim "T extends U".toList = ['T'] ++ [] ++ " extends ".toList ++ ([] ++ ['U'] ++ []) := by decide
    rw [shape]
    exact .bounded (by decide) (by simp) (.name (by decide)) .none
  have u : DeclaresParameter (trim "U extends T<?>".toList) (['U'], ['T']) := by
    have shape : trim "U extends T<?>".toList =
        ['U'] ++ [] ++ " extends ".toList ++ ([] ++ (['T'] ++ ('<' :: ['?'] ++ ['>'])) ++ []) := by decide
    have wildcard : Nesting.top.through brackets [] ['?'] = some .top := by decide
    rw [shape]
    exact .bounded (by decide) (by simp) (.arguments (.name (by decide)) (clear wildcard).1 (by simp [IsQuote])) .none
  have v : DeclaresParameter (trim " V extends a.B<T[]>.C & D ".toList) (['V'], "a.B.C".toList) := by
    have shape : trim " V extends a.B<T[]>.C & D ".toList = ['V'] ++ [] ++ " extends ".toList ++
        ([] ++ (['a'] ++ '.' :: ['B'] ++ ('<' :: "T[]".toList ++ ['>']) ++ '.' :: ['C']) ++
          ([' '] ++ '&' :: " D".toList)) := by decide
    have outer : SpellsName (['a'] ++ '.' :: ['B']) (['a'] ++ '.' :: ['B']) := .member (.name (by decide)) (by decide)
    have array : Nesting.top.through brackets [] "T[]".toList = some .top := by decide
    have more : Nesting.top.through brackets [','] " D".toList = some .top := by decide
    have first := (outer.arguments (clear array).1 (by simp [IsQuote])).member (by decide : IsLettered ['C'])
    rw [shape]
    exact .bounded (by decide) (by simp) first (.and (by decide) (clear more).1 (clear more).2)
  have w : DeclaresParameter (trim " W  extends V".toList) (['W'], ['V']) := by
    have shape : trim " W  extends V".toList = ['W'] ++ [' '] ++ " extends ".toList ++ ([] ++ ['V'] ++ []) := by
      decide
    rw [shape]
    exact .bounded (by decide) (by decide) (.name (by decide)) .none
  have last : DeclaresParameter (trim ['V']) (['V'], objectName) := .unbounded (by decide)
  exact .nest (.nest .empty ⟨["T extends U".toList, "U extends T<?>".toList, ['V']], by decide,
    .cons t (.cons u (.cons last .nil))⟩) ⟨[" V extends a.B<T[]>.C & D ".toList, " W  extends V".toList], by decide,
    .cons v (.cons w .nil)⟩

/-- Inside of the method `W` leads to the bound of the `V` that is declared there, and `T` into a circle. -/
theorem erase_variableFree_circular : Built circularNames circularScope ∧
    circularScope.resolve? ['W'] = some "a.B.C".toList ∧ circularScope.resolve? ['T'] = some objectName ∧
    circularScope.erase (circularScope.erase "T[],b.T<W>...".toList) =
      circularScope.erase "T[],b.T<W>...".toList := by
  have built := built_circularScope
  have binds {name bound : List Char} (found : circularScope.lookup? name = some bound) :
      BoundIn circularNames name bound := built.binds_iff.1 found
  have w : BoundIn circularNames ['W'] ['V'] := binds (by decide)
  have v : BoundIn circularNames ['V'] "a.B.C".toList := binds (by decide)
  have t : BoundIn circularNames ['T'] ['U'] := binds (by decide)
  have u : BoundIn circularNames ['U'] ['T'] := binds (by decide)
  obtain ⟨-, ends, circles, -, erased⟩ := erase_variableFree built
  exact ⟨built, ends _ _ (.tail (.single w) v) (by decide), circles _ _ (by decide) .refl (.tail (.single t) u),
    (erased _).2.2.2⟩

end Erasure

end ApiSurface
