import ApiSurface.Proofs.JavaType.Lexical
import ApiSurface.Proofs.JavaType.Signature

/-!
Erasure among type parameters whose bounds run in no circle. By structure, a type loses its arguments, keeps
its dimensions, and a variable in it becomes what its leftmost bound is erased to; this is what the text of
the type is erased to in the scope of the list. A word of the text has no structure, so it must not be called
like a variable unless it is one, and a bound must not be an array of a variable. Main statements: a variable
has one erasure if no chain of bounds comes back to it (`exists_erasesTo`, `ErasesTo.unique`), the text agrees
with it (`Erasure.erase_acyclic`), and it does not where a condition on words is left out
(`Erasure.not_erase_acyclic`).
-/

namespace ApiSurface

open ApiSurface.Text

/-! ### Names of letters -/

/-- A name of letters, digits, underscores and dollar signs. -/
structure IsLettered (t : List Char) : Prop where
  filled : t ≠ []
  letters : ∀ c ∈ t, isLetterOrDigit c ∨ c = '_' ∨ c = '$'

instance (t : List Char) : Decidable (IsLettered t) :=
  decidable_of_iff (t ≠ [] ∧ ∀ c ∈ t, isLetterOrDigit c ∨ c = '_' ∨ c = '$')
    ⟨fun h => ⟨h.1, h.2⟩, fun h => ⟨h.filled, h.letters⟩⟩

/-- Blanks are no letters. -/
theorem isBlank_of_isLetterOrDigit {c : Char} (h : isLetterOrDigit c) : isBlank c = false := by
  have apart : ∀ n ∈ List.range' 9 5 ++ List.range' 0x2000 11 ++
      [0x20, 0x85, 0xA0, 0x1680, 0x2028, 0x2029, 0x202F, 0x205F, 0x3000],
      isLetterOrDigit (Char.ofNat n) = false := by
    decide +kernel
  by_contra blank
  have listed : c.toNat ∈ List.range' 9 5 ++ List.range' 0x2000 11 ++
      [0x20, 0x85, 0xA0, 0x1680, 0x2028, 0x2029, 0x202F, 0x205F, 0x3000] := by
    simp only [isBlank, Bool.or_eq_true, Bool.and_eq_true, decide_eq_true_eq, beq_iff_eq, Bool.not_eq_false,
      List.mem_append, List.mem_cons, List.not_mem_nil, or_false, List.mem_range'_1] at blank ⊢
    omega
  have other := apart _ listed
  rw [Char.ofNat_toNat, h] at other
  cases other

theorem isPunctuation_of_isLetterOrDigit {c : Char} (h : isLetterOrDigit c) : isPunctuation c = false := by
  have apart : ∀ n < 128, isPunctuation (Char.ofNat n) → isLetterOrDigit (Char.ofNat n) = false := by
    decide +kernel
  by_contra mark
  rw [Bool.not_eq_false] at mark
  have small : c.toNat < 128 := by
    simp only [isPunctuation, Bool.or_eq_true, Bool.and_eq_true, decide_eq_true_eq] at mark
    omega
  have other := apart c.toNat small
  rw [Char.ofNat_toNat, h] at other
  cases other mark

theorem isNamePart_of_isLetterOrDigit {c : Char} (h : isLetterOrDigit c) : isNamePart c := by
  rw [isNamePart, isBlank_of_isLetterOrDigit h, isPunctuation_of_isLetterOrDigit h]
  rfl

theorem IsLettered.identifier {t : List Char} (h : IsLettered t) : IsIdentifier t := by
  refine ⟨h.filled, fun c mem => ?_⟩
  rcases h.letters c mem with letter | rfl | rfl
  · exact isNamePart_of_isLetterOrDigit letter
  · decide
  · decide

theorem IsLettered.nameChars {t : List Char} (h : IsLettered t) : ∀ c ∈ t, isNameChar c := by
  intro c mem
  rcases h.letters c mem with letter | rfl | rfl
  · simp [isNameChar, letter]
  · decide
  · decide

mutual

/-- The names in a type, those of a class with slashes one by one. -/
def JavaType.identifiers : JavaType → List (List Char)
  | .primitive _ => []
  | .variable name => [name]
  | .array element => element.identifiers
  | .classType name arguments nested =>
    pieces '/' name ++ (identifiersOfArguments? arguments ++ identifiersOfNested nested)

/-- The names in type arguments, if there are any. -/
def identifiersOfArguments? : Option (List TypeArgument) → List (List Char)
  | none => []
  | some arguments => identifiersOfArguments arguments

/-- The names in type arguments. -/
def identifiersOfArguments : List TypeArgument → List (List Char)
  | [] => []
  | a :: more => a.identifiers ++ identifiersOfArguments more

/-- The names in a type argument. -/
def TypeArgument.identifiers : TypeArgument → List (List Char)
  | .any => []
  | .extending bound => bound.identifiers
  | .superOf bound => bound.identifiers
  | .exactly type => type.identifiers

/-- The names of nested classes and those in their arguments. -/
def identifiersOfNested : List NestedType → List (List Char)
  | [] => []
  | .mk name arguments :: more => name :: (identifiersOfArguments? arguments ++ identifiersOfNested more)

end

mutual

/-- A type is legal if its names are names. -/
theorem JavaType.legal_of_identifiers : ∀ {t : JavaType}, (∀ i ∈ t.identifiers, IsIdentifier i) → t.Legal
  | .primitive _, _ => trivial
  | .variable _, h => h _ (by simp [JavaType.identifiers])
  | .array element, h => JavaType.legal_of_identifiers (t := element) h
  | .classType name arguments nested, h => by
    simp only [JavaType.identifiers, List.mem_append] at h
    exact ⟨(isInternal_iff.2 fun i mem => h i (.inl mem)).dotted,
      legalArguments?_of_identifiers fun i mem => h i (.inr (.inl mem)),
      legalNested_of_identifiers fun i mem => h i (.inr (.inr mem))⟩

theorem legalArguments?_of_identifiers : ∀ {arguments : Option (List TypeArgument)},
    (∀ i ∈ identifiersOfArguments? arguments, IsIdentifier i) → LegalArguments? arguments
  | none, _ => trivial
  | some l, h => legalArguments_of_identifiers (l := l) h

theorem legalArguments_of_identifiers : ∀ {l : List TypeArgument},
    (∀ i ∈ identifiersOfArguments l, IsIdentifier i) → LegalArguments l
  | [], _ => trivial
  | a :: more, h => by
    simp only [identifiersOfArguments, List.mem_append] at h
    exact ⟨TypeArgument.legal_of_identifiers fun i mem => h i (.inl mem),
      legalArguments_of_identifiers fun i mem => h i (.inr mem)⟩

theorem TypeArgument.legal_of_identifiers : ∀ {a : TypeArgument}, (∀ i ∈ a.identifiers, IsIdentifier i) → a.Legal
  | .any, _ => trivial
  | .extending bound, h => JavaType.legal_of_identifiers (t := bound) h
  | .superOf bound, h => JavaType.legal_of_identifiers (t := bound) h
  | .exactly type, h => JavaType.legal_of_identifiers (t := type) h

theorem legalNested_of_identifiers : ∀ {nested : List NestedType},
    (∀ i ∈ identifiersOfNested nested, IsIdentifier i) → LegalNested nested
  | [], _ => trivial
  | .mk name arguments :: more, h => by
    simp only [identifiersOfNested, List.mem_cons, List.mem_append] at h
    exact ⟨h name (.inl rfl), legalArguments?_of_identifiers fun i mem => h i (.inr (.inl mem)),
      legalNested_of_identifiers fun i mem => h i (.inr (.inr mem))⟩

end

/-- A type whose names consist of letters. -/
def JavaType.IsLettered (t : JavaType) : Prop := ∀ i ∈ t.identifiers, ApiSurface.IsLettered i

instance (t : JavaType) : Decidable t.IsLettered := inferInstanceAs (Decidable (∀ i ∈ t.identifiers, _))

theorem JavaType.IsLettered.legal {t : JavaType} (h : t.IsLettered) : t.Legal :=
  JavaType.legal_of_identifiers fun i mem => (h i mem).identifier

/-! ### Erasure by structure -/

/-- A nested class without its type arguments. -/
def NestedType.plain : NestedType → NestedType
  | .mk name _ => .mk name none

/-- What a type is erased to among these type parameters: arguments are dropped, dimensions are kept, and a
variable becomes what its leftmost bound is erased to. -/
inductive ErasesTo (ps : List TypeParameter) : JavaType → JavaType → Prop
  | primitive (p : Primitive) : ErasesTo ps (.primitive p) (.primitive p)
  | array {t u : JavaType} (element : ErasesTo ps t u) : ErasesTo ps (.array t) (.array u)
  | classType (name : List Char) (arguments : Option (List TypeArgument)) (nested : List NestedType) :
    ErasesTo ps (.classType name arguments nested) (.classType name none (nested.map NestedType.plain))
  | typeVariable {p : TypeParameter} {u : JavaType} (declared : p ∈ ps) (bound : ErasesTo ps p.first u) :
    ErasesTo ps (.variable p.name) u

/-- A type without its dimensions. -/
def JavaType.base : JavaType → JavaType
  | .array element => element.base
  | .primitive p => .primitive p
  | .variable name => .variable name
  | .classType name arguments nested => .classType name arguments nested

/-- Whether a type is a type variable. -/
def JavaType.isVariable : JavaType → Bool
  | .variable _ => true
  | .primitive _ | .array _ | .classType .. => false

/-- One variable is bounded by another one, or by an array of it. -/
def BoundedBy (ps : List TypeParameter) (a b : List Char) : Prop :=
  ∃ p ∈ ps, p.name = a ∧ p.first.base = .variable b

/-- Type parameters with names of letters that differ, and with leftmost bounds that run in no circle. -/
structure AcyclicParameters (ps : List TypeParameter) : Prop where
  lettered : ∀ p ∈ ps, IsLettered p.name ∧ ∀ b ∈ p.bounds, b.IsLettered
  distinct : (ps.map TypeParameter.name).Nodup
  acyclic : ∀ name, ¬ Relation.TransGen (BoundedBy ps) name name

/-- A type means in its text what it means by structure: the word that is left of it without arguments and
dimensions is the name of a declared variable exactly if it stands for a variable. -/
structure JavaType.MeantIn (ps : List TypeParameter) (t : JavaType) : Prop where
  declared : t.base.isVariable → ∃ p ∈ ps, p.name = t.base.erased
  apart : t.base.isVariable = false → ∀ p ∈ ps, p.name ≠ t.base.erased

instance (ps : List TypeParameter) (t : JavaType) : Decidable (t.MeantIn ps) :=
  decidable_of_iff ((t.base.isVariable → ∃ p ∈ ps, p.name = t.base.erased) ∧
      (t.base.isVariable = false → ∀ p ∈ ps, p.name ≠ t.base.erased))
    ⟨fun h => ⟨h.1, h.2⟩, fun h => ⟨h.declared, h.apart⟩⟩

theorem JavaType.MeantIn.array {ps : List TypeParameter} {t : JavaType} (h : t.MeantIn ps) :
    (JavaType.array t).MeantIn ps := ⟨h.declared, h.apart⟩

theorem JavaType.MeantIn.element {ps : List TypeParameter} {t : JavaType} (h : (JavaType.array t).MeantIn ps) :
    t.MeantIn ps := ⟨h.declared, h.apart⟩

/-- Type parameters whose leftmost bounds mean in the text what they mean by structure. A text is looked up
whole, so that a variable must not be bounded by an array of another one. -/
structure ErasableParameters (ps : List TypeParameter) : Prop extends AcyclicParameters ps where
  meant : ∀ p ∈ ps, p.first.MeantIn ps
  straight : ∀ p ∈ ps, p.first.base.isVariable → p.first.isArray = false

section Structure

variable {ps : List TypeParameter} {t u v : JavaType}

/-- A name is declared once. -/
theorem AcyclicParameters.eq_of_name (h : AcyclicParameters ps) {p q : TypeParameter} (hp : p ∈ ps) (hq : q ∈ ps)
    (same : q.name = p.name) : q = p :=
  List.inj_on_of_nodup_map h.distinct hq hp same

theorem AcyclicParameters.first (h : AcyclicParameters ps) {p : TypeParameter} (mem : p ∈ ps) :
    p.first.IsLettered := by
  unfold TypeParameter.first
  cases bounds : p.bounds with
  | nil =>
    have object : ∀ i ∈ (JavaType.classType "java/lang/Object".toList none []).identifiers, IsLettered i := by decide
    exact object
  | cons b more => exact (h.lettered p mem).2 b (by simp [bounds])

theorem AcyclicParameters.named (h : AcyclicParameters ps) : ∀ p ∈ ps, p.Named := fun p mem =>
  ⟨(h.lettered p mem).1.identifier, fun b inList => ((h.lettered p mem).2 b inList).legal⟩

/-- A type is erased in one way. -/
theorem ErasesTo.unique (h : AcyclicParameters ps) (first : ErasesTo ps t u) (second : ErasesTo ps t v) : v = u := by
  induction first generalizing v with
  | primitive p =>
    cases second
    rfl
  | array element ih =>
    cases second with
    | array element' => rw [ih element']
  | classType name arguments nested =>
    cases second
    rfl
  | @typeVariable p u declared bound ih =>
    generalize named : p.name = name at second
    cases second with
    | @typeVariable q _ declared' bound' =>
      obtain rfl := h.eq_of_name declared declared' named.symm
      exact ih bound'

/-- From one variable to the next one comes to an end. -/
theorem AcyclicParameters.wellFounded (h : AcyclicParameters ps) :
    WellFounded fun q p : { p // p ∈ ps } => BoundedBy ps p.1.name q.1.name := by
  have finite : Finite { p // p ∈ ps } := (List.finite_toSet ps).to_subtype
  have irrefl : Std.Irrefl (Relation.TransGen fun q p : { p // p ∈ ps } => BoundedBy ps p.1.name q.1.name) := by
    refine ⟨fun p circle => h.acyclic p.1.name ?_⟩
    have back : Relation.TransGen (Function.swap (BoundedBy ps)) p.1.name p.1.name :=
      Relation.TransGen.lift (fun p : { p // p ∈ ps } => p.1.name) (fun _ _ step => step) _ _ circle
    exact Relation.transGen_swap.1 back
  have chains : WellFounded (Relation.TransGen fun q p : { p // p ∈ ps } => BoundedBy ps p.1.name q.1.name) :=
    Finite.wellFounded_of_trans_of_irrefl _
  exact Subrelation.wf (fun step => .single step) chains

theorem exists_erasesTo_of_base (h : ∀ name, t.base = .variable name → ∃ u, ErasesTo ps (.variable name) u) :
    ∃ u, ErasesTo ps t u := by
  induction t using JavaType.base.induct with
  | case1 element ih =>
    obtain ⟨u, erases⟩ := ih h
    exact ⟨_, .array erases⟩
  | case2 p => exact ⟨_, .primitive p⟩
  | case3 name => exact h name rfl
  | case4 name arguments nested => exact ⟨_, .classType name arguments nested⟩

/-- A type is erased to something if its variable is declared. -/
theorem exists_erasesTo (h : ErasableParameters ps) (meant : t.MeantIn ps) : ∃ u, ErasesTo ps t u := by
  have each : ∀ p : { p // p ∈ ps }, ∃ u, ErasesTo ps (.variable p.1.name) u := by
    intro p
    induction p using h.wellFounded.induction with
    | _ p ih =>
      have bound : ∃ u, ErasesTo ps p.1.first u := by
        refine exists_erasesTo_of_base fun name base => ?_
        obtain ⟨q, mem, named⟩ := (h.meant p.1 p.2).declared (by rw [base]; rfl)
        rw [base] at named
        have next : q.name = name := named
        subst next
        exact ih ⟨q, mem⟩ ⟨p.1, p.2, rfl, base⟩
      obtain ⟨u, erases⟩ := bound
      exact ⟨u, .typeVariable p.2 erases⟩
  refine exists_erasesTo_of_base fun name base => ?_
  obtain ⟨p, mem, named⟩ := meant.declared (by rw [base]; rfl)
  rw [base] at named
  have same : p.name = name := named
  exact same ▸ each ⟨p, mem⟩

/-! ### Erasure of the text -/

/-- Nested classes without arguments are written like erased ones. -/
theorem renderNested_plain (nested : List NestedType) :
    renderNested (nested.map NestedType.plain) = erasedNested nested := by
  induction nested with
  | nil => rfl
  | cons n nested ih =>
    obtain ⟨name, arguments⟩ := n
    simp [NestedType.plain, renderNested, renderArguments?, erasedNested, ih]

/-- Where no variable is left, only arguments are dropped. -/
theorem ErasesTo.render_of_base (h : ErasesTo ps t u) (solid : t.base.isVariable = false) : u.render = t.erased := by
  induction h with
  | primitive p => rfl
  | array element ih =>
    rw [JavaType.render, JavaType.erased, ih solid]
  | classType name arguments nested =>
    simp [JavaType.render, JavaType.erased, renderArguments?, renderNested_plain]
  | typeVariable declared bound => cases solid

theorem nameChars_erasedNested {nested : List NestedType} (h : ∀ i ∈ identifiersOfNested nested, IsLettered i) :
    ∀ c ∈ erasedNested nested, isNameChar c := by
  induction nested with
  | nil => simp [erasedNested]
  | cons n nested ih =>
    obtain ⟨name, arguments⟩ := n
    have named : IsLettered name := h name (by simp [identifiersOfNested])
    have later := ih fun i mem => h i (by simp [identifiersOfNested, mem])
    intro c mem
    simp only [erasedNested, List.cons_append, List.mem_cons, List.mem_append] at mem
    rcases mem with rfl | mem | mem
    · decide
    · exact named.nameChars c mem
    · exact later c mem

theorem nameChars_dotted {name : List Char} (h : ∀ i ∈ pieces '/' name, IsLettered i) :
    ∀ c ∈ dotted name, isNameChar c := by
  have qualified := (isInternal_iff.2 fun i mem => (h i mem).identifier).dotted
  intro c mem
  obtain ⟨d, inside, replaced⟩ := List.mem_map.1 mem
  rw [← join_pieces '/' name] at inside
  split at replaced
  · subst replaced
    decide
  · rename_i noSlash
    subst replaced
    rcases mem_or_of_mem_join inside with slash | ⟨p, inList, part⟩
    · exact absurd (List.mem_singleton.1 slash) noSlash
    · exact (h p inList).nameChars d part

/-- A type without arguments and dimensions is one word. -/
theorem JavaType.IsLettered.nameChars (h : t.IsLettered) (noArray : t.isArray = false) :
    ∀ c ∈ t.erased, isNameChar c := by
  cases t with
  | primitive p => cases p <;> decide
  | «variable» name => exact IsLettered.nameChars (h name (by simp [JavaType.identifiers]))
  | array element => cases noArray
  | classType name arguments nested =>
    intro c mem
    rcases List.mem_append.1 mem with mem | mem
    · exact nameChars_dotted (fun i inside => h i (by simp [JavaType.identifiers, inside])) c mem
    · exact nameChars_erasedNested (fun i inside => h i (by simp [JavaType.identifiers, inside])) c mem

theorem JavaType.base_of_isArray (noArray : t.isArray = false) : t.base = t := by
  cases t <;> first | rfl | cases noArray

namespace Erasure

theorem lookup?_declared (h : AcyclicParameters ps) {p : TypeParameter} (mem : p ∈ ps) :
    (ofLists [] ps).lookup? p.name = some p.first.erased :=
  lookup?_ofLists_class (by simp) mem fun _ inList same => h.eq_of_name mem inList same

theorem lookup?_eq_none {name : List Char} (free : ∀ p ∈ ps, p.name ≠ name) :
    (ofLists [] ps).lookup? name = none := by
  by_contra bound
  obtain ⟨_, found⟩ := Option.ne_none_iff_exists'.1 bound
  obtain ⟨p, mem, same⟩ := exists_of_lookup?_ofLists found
  exact free p (by simpa using mem) same

/-- A text that stands for no variable is bound to nothing. -/
theorem lookup?_erased (h : AcyclicParameters ps) (meant : t.MeantIn ps) (solid : t.base.isVariable = false) :
    (ofLists [] ps).lookup? t.erased = none := by
  refine lookup?_eq_none fun p mem same => ?_
  cases array : t.isArray with
  | false => exact meant.apart solid p mem (by rw [JavaType.base_of_isArray array, same])
  | true =>
    cases t with
    | array element =>
      have bracket : '[' ∈ p.name := by simp [same, JavaType.erased]
      exact absurd ((h.lettered p mem).1.nameChars '[' bracket) (by decide)
    | primitive p => cases array
    | «variable» name => cases array
    | classType name arguments nested => cases array

/-- Bounds lead in the text where they lead by structure. -/
theorem follows_of_erasesTo (h : ErasableParameters ps) (erases : ErasesTo ps t u) (meant : t.MeantIn ps)
    (straight : t.base.isVariable → t.isArray = false) :
    ∃ passed, (ofLists [] ps).Follows passed t.erased u.render := by
  have stops {t u : JavaType} (erases : ErasesTo ps t u) (meant : t.MeantIn ps)
      (solid : t.base.isVariable = false) : ∃ passed, (ofLists [] ps).Follows passed t.erased u.render := by
    rw [erases.render_of_base solid]
    exact ⟨[], .stop (lookup?_erased h.toAcyclicParameters meant solid)⟩
  induction erases with
  | primitive p => exact stops (.primitive p) meant rfl
  | @array t u element =>
    refine stops (.array element) meant ?_
    by_contra isVariable
    have noArray := straight (by simpa using isVariable)
    cases noArray
  | classType name arguments nested => exact stops (.classType name arguments nested) meant rfl
  | @typeVariable p u declared bound ih =>
    obtain ⟨passed, more⟩ := ih (h.meant p declared) (h.straight p declared)
    exact ⟨_, .step (lookup?_declared h.toAcyclicParameters declared) more⟩

/-- The text of a type is erased to what the type is erased to. -/
theorem erase_of_erasesTo (h : ErasableParameters ps) (erases : ErasesTo ps t u) (lettered : t.IsLettered)
    (meant : t.MeantIn ps) : (ofLists [] ps).erase t.render = u.render := by
  rw [erase_eq, stripGenerics_render lettered.legal]
  -- without dimensions the text is one word, and what a word leads to replaces it
  have oneWord {t u : JavaType} (erases : ErasesTo ps t u) (lettered : t.IsLettered) (meant : t.MeantIn ps)
      (noArray : t.isArray = false) : (ofLists [] ps).replaceAll [] t.erased = u.render := by
    obtain ⟨passed, follows⟩ := follows_of_erasesTo h erases meant fun _ => noArray
    rw [replaceAll_of_name (lettered.nameChars noArray), List.nil_append]
    exact follows.replace lettered.legal.flat.1.filled
  induction erases with
  | primitive p => exact oneWord (.primitive p) lettered meant rfl
  | @array t u element ih =>
    have inner := ih lettered meant.element
    rw [JavaType.erased, replaceAll_dimension, inner]
    rfl
  | classType name arguments nested => exact oneWord (.classType name arguments nested) lettered meant rfl
  | typeVariable declared bound => exact oneWord (.typeVariable declared bound) lettered meant rfl

/-- A list of types is erased type by type. -/
theorem erase_types_of_erasesTo (h : ErasableParameters ps) {ts us : List JavaType}
    (erases : List.Forall₂ (ErasesTo ps) ts us) (fits : ∀ t ∈ ts, t.IsLettered ∧ t.MeantIn ps) :
    (ofLists [] ps).erase (renderTypes ts) = renderTypes us := by
  have each : ts.map (fun t => (ofLists [] ps).erase t.render) = us.map JavaType.render := by
    induction erases with
    | nil => rfl
    | @cons t u ts us first more ih =>
      obtain ⟨lettered, meant⟩ := fits t (by simp)
      rw [List.map_cons, List.map_cons, erase_of_erasesTo h first lettered meant,
        ih fun s mem => fits s (by simp [mem])]
  rw [erase_types fun t mem => (fits t mem).1.legal, each, renderTypes]

/-- A list whose last type may be given any number of times is erased to one that ends with an array of it. -/
theorem erase_dots_of_erasesTo (h : ErasableParameters ps) {ts us : List JavaType} {t u : JavaType}
    (erases : List.Forall₂ (ErasesTo ps) ts us) (last : ErasesTo ps t u)
    (fits : ∀ s ∈ ts ++ [t], s.IsLettered ∧ s.MeantIn ps) :
    (ofLists [] ps).erase (renderTypes (ts ++ [t]) ++ "...".toList) = renderTypes (us ++ [.array u]) := by
  have whole : List.Forall₂ (ErasesTo ps) (ts ++ [.array t]) (us ++ [.array u]) :=
    List.rel_append erases (.cons (.array last) .nil)
  have dots : stripGenerics (renderTypes (ts ++ [t]) ++ "...".toList) = stripGenerics (renderTypes (ts ++ [.array t])) :=
    stripGenerics_concat_dots fun s mem => (fits s mem).1.legal
  rw [erase_eq, dots, ← erase_eq]
  refine erase_types_of_erasesTo h whole fun s mem => ?_
  rcases List.mem_append.1 mem with mem | mem
  · exact fits s (List.mem_append_left _ mem)
  · obtain rfl := List.mem_singleton.1 mem
    obtain ⟨lettered, meant⟩ := fits t (by simp)
    exact ⟨lettered, meant.array⟩

/-- In the scope of type parameters whose bounds run in no circle, a type is erased in its text to what it is
erased to by structure, which is one type. So is a list of types, also one whose last type may be given any
number of times. -/
theorem erase_acyclic (h : ErasableParameters ps) {ts : List JavaType} {t : JavaType}
    (fits : ∀ s ∈ ts ++ [t], s.IsLettered ∧ s.MeantIn ps) :
    ∃ us u, List.Forall₂ (ErasesTo ps) ts us ∧ ErasesTo ps t u ∧ (∀ s v w, ErasesTo ps s v → ErasesTo ps s w → w = v) ∧
      (empty.nest (some (renderParameters ps))).erase t.render = u.render ∧
      (empty.nest (some (renderParameters ps))).erase (renderTypes ts) = renderTypes us ∧
      (empty.nest (some (renderParameters ps))).erase (renderTypes (ts ++ [t]) ++ "...".toList) =
        renderTypes (us ++ [.array u]) := by
  have scope : empty.nest (some (renderParameters ps)) = ofLists [] ps := by
    have named : ∀ p ∈ (some ps).getD [], p.Named := h.toAcyclicParameters.named
    have nested := nest_render named empty
    simpa [ofLists, empty] using nested
  obtain ⟨u, last⟩ := exists_erasesTo h (fits t (by simp)).2
  have front : ∀ s ∈ ts, s.IsLettered ∧ s.MeantIn ps := fun s mem => fits s (List.mem_append_left _ mem)
  obtain ⟨us, erases⟩ : ∃ us, List.Forall₂ (ErasesTo ps) ts us := by
    clear fits
    induction ts with
    | nil => exact ⟨[], .nil⟩
    | cons s ts ih =>
      obtain ⟨v, first⟩ := exists_erasesTo h (front s (by simp)).2
      obtain ⟨us, more⟩ := ih fun r mem => front r (by simp [mem])
      exact ⟨v :: us, .cons first more⟩
  obtain ⟨lettered, meant⟩ := fits t (by simp)
  rw [scope]
  exact ⟨us, u, erases, last, fun s v w => ErasesTo.unique h.toAcyclicParameters, erase_of_erasesTo h last lettered meant,
    erase_types_of_erasesTo h erases front, erase_dots_of_erasesTo h erases last fits⟩

end Erasure

end Structure

/-! ### Bounds that run forward -/

/-- Bounds that only lead further down the list run in no circle. -/
theorem not_transGen_of_forward {ps : List TypeParameter}
    (forward : ∀ a b, BoundedBy ps a b → (ps.map TypeParameter.name).idxOf a < (ps.map TypeParameter.name).idxOf b)
    (name : List Char) : ¬ Relation.TransGen (BoundedBy ps) name name := by
  intro circle
  have further : ∀ {a b}, Relation.TransGen (BoundedBy ps) a b →
      (ps.map TypeParameter.name).idxOf a < (ps.map TypeParameter.name).idxOf b := by
    intro a b chain
    induction chain with
    | single step => exact forward _ _ step
    | tail _ step ih => exact ih.trans (forward _ _ step)
  exact Nat.lt_irrefl _ (further circle)

namespace Erasure

/-- A class without arguments. -/
def plainClass (name : String) : JavaType := .classType name.toList none []

/-- A variable that is bounded by another one, which has two bounds, and one without bounds. -/
def comparableParameters : List TypeParameter :=
  [⟨['T'], [.variable ['U']]⟩,
    ⟨['U'], [.classType "java/lang/Comparable".toList (some [.exactly (.variable ['T'])]) [],
      plainClass "java/lang/Runnable"]⟩,
    ⟨['V'], []⟩]

/-- Entries of a map from one of the variables to another one. -/
def comparableEntry : JavaType :=
  .classType "java/util/Map".toList (some [.exactly (.variable ['T']), .superOf (.variable ['U'])]) [.mk "Entry".toList none]

theorem erasable_comparableParameters : ErasableParameters comparableParameters := by
  refine ⟨⟨by decide +kernel, by decide, not_transGen_of_forward ?_⟩, by decide, by decide⟩
  rintro a b ⟨p, mem, rfl, base⟩
  simp only [comparableParameters, List.mem_cons, List.not_mem_nil, or_false] at mem
  rcases mem with rfl | rfl | rfl
  · obtain rfl : ['U'] = b := JavaType.variable.inj base
    decide
  · cases base
  · cases base

theorem erase_acyclic_comparable :
    ErasableParameters comparableParameters ∧
    (∀ s ∈ [comparableEntry, .variable ['V']] ++ [.array (.variable ['T'])],
      s.IsLettered ∧ s.MeantIn comparableParameters) ∧
    (empty.nest (some (renderParameters comparableParameters))).erase (JavaType.array (.variable ['T'])).render =
      "java.lang.Comparable[]".toList ∧
    (empty.nest (some (renderParameters comparableParameters))).erase (renderTypes [comparableEntry, .variable ['V']]) =
      "java.util.Map$Entry,java.lang.Object".toList ∧
    (empty.nest (some (renderParameters comparableParameters))).erase
      (renderTypes ([comparableEntry, .variable ['V']] ++ [.array (.variable ['T'])]) ++ "...".toList) =
        "java.util.Map$Entry,java.lang.Object,java.lang.Comparable[][]".toList := by
  have fits : ∀ s ∈ [comparableEntry, .variable ['V']] ++ [.array (.variable ['T'])],
      s.IsLettered ∧ s.MeantIn comparableParameters := by decide +kernel
  have upper : ErasesTo comparableParameters (.variable ['U']) (plainClass "java/lang/Comparable") :=
    .typeVariable (p := comparableParameters[1]) (List.getElem_mem _) (.classType _ _ _)
  have lower : ErasesTo comparableParameters (.variable ['T']) (plainClass "java/lang/Comparable") :=
    .typeVariable (p := comparableParameters[0]) (List.getElem_mem _) upper
  have bare : ErasesTo comparableParameters (.variable ['V']) (plainClass "java/lang/Object") :=
    .typeVariable (p := comparableParameters[2]) (List.getElem_mem _) (.classType _ _ _)
  obtain ⟨us, u, erases, last, unique, text, list, dots⟩ := erase_acyclic erasable_comparableParameters fits
  obtain rfl := unique _ _ _ last (.array lower)
  cases erases with
  | cons first more =>
    cases more with
    | cons second none =>
      cases none
      cases first
      obtain rfl := unique _ _ _ second bare
      exact ⟨erasable_comparableParameters, fits, text, list, dots⟩

/-! ### Words that mislead -/

/-- A variable that is bounded by an array of another one. -/
def arrayBounded : List TypeParameter := [⟨['T'], [.array (.variable ['U'])]⟩, ⟨['U'], []⟩]

/-- A variable that is bounded by a class called like another one. -/
def classBounded : List TypeParameter := [⟨['T'], [plainClass "U"]⟩, ⟨['U'], [plainClass "java/lang/Number"]⟩]

/-- A variable that is called like a primitive type. -/
def primitiveNamed : List TypeParameter := [⟨"int".toList, []⟩]

theorem acyclic_arrayBounded : AcyclicParameters arrayBounded := by
  refine ⟨by decide +kernel, by decide, not_transGen_of_forward ?_⟩
  rintro a b ⟨p, mem, rfl, base⟩
  simp only [arrayBounded, List.mem_cons, List.not_mem_nil, or_false] at mem
  rcases mem with rfl | rfl
  · obtain rfl : ['U'] = b := JavaType.variable.inj base
    decide
  · cases base

theorem acyclic_classBounded : AcyclicParameters classBounded := by
  refine ⟨by decide +kernel, by decide, not_transGen_of_forward ?_⟩
  rintro a b ⟨p, mem, rfl, base⟩
  simp only [classBounded, List.mem_cons, List.not_mem_nil, or_false] at mem
  rcases mem with rfl | rfl <;> cases base

theorem acyclic_primitiveNamed : AcyclicParameters primitiveNamed := by
  refine ⟨by decide +kernel, by decide, not_transGen_of_forward ?_⟩
  rintro a b ⟨p, mem, rfl, base⟩
  obtain rfl := List.mem_singleton.1 mem
  cases base

/-- Bounds that run in no circle are not enough. The text keeps an array of a variable as it is, takes a class for
the variable that is called like it, and a primitive type as well. -/
theorem not_erase_acyclic :
    (AcyclicParameters arrayBounded ∧ (JavaType.variable ['T']).MeantIn arrayBounded ∧
      ErasesTo arrayBounded (.variable ['T']) (.array (plainClass "java/lang/Object")) ∧
      (empty.nest (some (renderParameters arrayBounded))).erase (JavaType.variable ['T']).render = "U[]".toList ∧
      (JavaType.array (plainClass "java/lang/Object")).render = "java.lang.Object[]".toList) ∧
    (AcyclicParameters classBounded ∧ (JavaType.variable ['T']).MeantIn classBounded ∧
      ErasesTo classBounded (.variable ['T']) (plainClass "U") ∧
      (empty.nest (some (renderParameters classBounded))).erase (JavaType.variable ['T']).render =
        "java.lang.Number".toList ∧
      (plainClass "U").render = "U".toList) ∧
    AcyclicParameters primitiveNamed ∧ ErasesTo primitiveNamed (.primitive .int) (.primitive .int) ∧
      (empty.nest (some (renderParameters primitiveNamed))).erase (JavaType.primitive .int).render =
        "java.lang.Object".toList ∧
      (JavaType.primitive .int).render = "int".toList := by
  have object : ErasesTo arrayBounded (.variable ['U']) (plainClass "java/lang/Object") :=
    .typeVariable (p := arrayBounded[1]) (List.getElem_mem _) (.classType _ _ _)
  have array : ErasesTo arrayBounded (.variable ['T']) (.array (plainClass "java/lang/Object")) :=
    .typeVariable (p := arrayBounded[0]) (List.getElem_mem _) (.array object)
  have class' : ErasesTo classBounded (.variable ['T']) (plainClass "U") :=
    .typeVariable (p := classBounded[0]) (List.getElem_mem _) (.classType _ _ _)
  refine ⟨⟨acyclic_arrayBounded, by decide, array, ?_, by decide⟩,
    ⟨acyclic_classBounded, by decide, class', ?_, by decide⟩, acyclic_primitiveNamed, .primitive .int, ?_, by decide⟩
  · decide +kernel
  · decide +kernel
  · decide +kernel

end Erasure

end ApiSurface
