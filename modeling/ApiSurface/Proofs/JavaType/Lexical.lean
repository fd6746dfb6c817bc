import ApiSurface.JavaType.Descriptor
import ApiSurface.Proofs.JavaType.Erasure

/-!
Erasure by the rules of the language, and as text. By the rules a type variable is the one that the
innermost declaration around it declares, and its bound is read where it was declared. Main statements: if
the bounds of the class mean the same inside a method, following them in the text ends where the rules do
(`Erasure.follows_of_method`), so that types and lists of them are erased to what the rules say
(`Erasure.erase_render`, `Erasure.erase_renderTypes`).
-/

namespace ApiSurface

open ApiSurface.Text

/-! ### The rules -/

/-- The first bound of a type parameter, which is the class of all objects if there is none. -/
def TypeParameter.first (p : TypeParameter) : JavaType :=
  p.bounds.headD (.classType "java/lang/Object".toList none [])

/-- Whether a type is an array. -/
def JavaType.isArray : JavaType → Bool
  | .array _ => true
  | .primitive _ | .variable _ | .classType .. => false

/-- What a type is erased to where these lists of type parameters are declared, the innermost first. A bound
is no array. -/
inductive Erases : List (List TypeParameter) → JavaType → JavaType → Prop
  | primitive {scopes} (p : Primitive) : Erases scopes (.primitive p) (.primitive p)
  | array {scopes t u} (element : Erases scopes t u) : Erases scopes (.array t) (.array u)
  | classType {scopes} (name : List Char) (arguments : Option (List TypeArgument)) (nested : List NestedType) :
    Erases scopes (.classType name arguments nested) (.classType (name ++ erasedNested nested) none [])
  | typeVariable {inner ps outer name p u} (further : ∀ list ∈ inner, ∀ q ∈ list, q.name ≠ name)
    (declared : p ∈ ps) (named : p.name = name) (once : ∀ q ∈ ps, q.name = name → q = p)
    (noArray : p.first.isArray = false) (bound : Erases (ps :: outer) p.first u) :
    Erases (inner ++ ps :: outer) (.variable name) u

/-- A declaration that declares nothing does not count. -/
theorem Erases.under_nil {scopes : List (List TypeParameter)} {t u : JavaType} (h : Erases scopes t u) :
    Erases ([] :: scopes) t u := by
  induction h with
  | primitive p => exact .primitive p
  | array element ih => exact .array ih
  | classType name arguments nested => exact .classType name arguments nested
  | @typeVariable inner ps outer name p u further mem named once straight bound ih =>
    rw [← List.cons_append]
    exact .typeVariable (by simpa using further) mem named once straight bound

namespace Erasure

/-! ### Following bounds -/

/-- The names that are passed on the way from a name to the end of its bounds. -/
inductive Follows (scope : Erasure) : List (List Char) → List Char → List Char → Prop
  | stop {name} (free : scope.lookup? name = none) : Follows scope [] name name
  | step {name bound passed last} (found : scope.lookup? name = some bound)
    (more : Follows scope passed bound last) : Follows scope (name :: passed) name last

variable {scope : Erasure} {passed other : List (List Char)} {name last : List Char}

/-- There is one way only. -/
theorem Follows.unique (h : scope.Follows passed name last) {end' : List Char}
    (k : scope.Follows other name end') : other = passed := by
  induction h generalizing other with
  | stop free =>
    cases k with
    | stop => rfl
    | step found more => simp [free] at found
  | step found more ih =>
    cases k with
    | stop free => simp [free] at found
    | step found' more' =>
      obtain rfl := Option.some.inj (found.symm.trans found')
      rw [ih more']

/-- The way goes on from every name that is passed. -/
theorem Follows.of_mem (h : scope.Follows passed name last) {between : List Char} (mem : between ∈ passed) :
    ∃ rest, rest <:+ passed ∧ scope.Follows rest between last := by
  induction h with
  | stop => cases mem
  | @step name bound passed last found more ih =>
    rcases List.mem_cons.1 mem with rfl | mem
    · exact ⟨_, List.suffix_rfl, .step found more⟩
    · obtain ⟨rest, suffix, follows⟩ := ih mem
      exact ⟨rest, suffix.trans (List.suffix_cons _ _), follows⟩

/-- No name is passed twice, or the way would have no end. -/
theorem Follows.nodup (h : scope.Follows passed name last) : passed.Nodup := by
  induction h with
  | stop => exact List.nodup_nil
  | @step name bound passed last found more ih =>
    refine List.nodup_cons.2 ⟨fun again => ?_, ih⟩
    obtain ⟨rest, suffix, follows⟩ := more.of_mem again
    have same := follows.unique (.step found more)
    have shorter := suffix.length_le
    rw [← same, List.length_cons] at shorter
    omega

/-- Every name that is passed has a binding. -/
theorem Follows.subset (h : scope.Follows passed name last) : passed ⊆ scope.bindings.map Prod.fst := by
  induction h with
  | stop => simp
  | step found more ih =>
    obtain ⟨entry, here, -⟩ := Option.map_eq_some_iff.1 found
    refine List.cons_subset.2 ⟨List.mem_map.2 ⟨entry, List.mem_of_find?_eq_some here, ?_⟩, ih⟩
    simpa using List.find?_some here

theorem Follows.follow (h : scope.Follows passed name last) {steps : Nat} (enough : passed.length ≤ steps) :
    scope.follow steps name = last := by
  induction h generalizing steps with
  | stop free =>
    unfold Erasure.follow
    rw [free]
  | @step name bound passed last found more ih =>
    rw [List.length_cons] at enough
    obtain ⟨steps, rfl⟩ : ∃ n, steps = n + 1 := ⟨steps - 1, by omega⟩
    unfold Erasure.follow
    rw [found]
    exact ih (by omega)

/-- A name is replaced by the end of its bounds. -/
theorem Follows.replace (h : scope.Follows passed name last) (filled : name ≠ []) : scope.replace name = last := by
  have enough : passed.length ≤ scope.bindings.length := by
    have fewer := h.nodup.subperm h.subset
    simpa using fewer.length_le
  unfold Erasure.replace resolve?
  rw [if_neg (by simpa using filled)]
  cases h with
  | stop free => simp [free]
  | step found more =>
    rw [found, Option.map_some, Option.getD_some]
    exact (Follows.step found more).follow enough

/-! ### Declared variables -/

/-- What type parameters bind. -/
def bindingOf (p : TypeParameter) : List Char × List Char := (p.name, p.first.erased)

theorem binding_render_eq {p : TypeParameter} (h : p.Named) : binding p.render = bindingOf p := by
  obtain ⟨b, more, uppers, bound⟩ := binding_render h
  have same : b.erased = p.first.erased := by
    unfold TypeParameter.uppers at uppers
    unfold TypeParameter.first
    cases bounds : p.bounds with
    | nil =>
      obtain rfl : JavaType.object = b := by simpa [bounds] using (List.cons.inj (by simpa [bounds] using uppers)).1
      decide
    | cons c others =>
      obtain rfl : c = b := by simpa [bounds] using (List.cons.inj (by simpa [bounds] using uppers)).1
      rfl
  rw [bound, bindingOf, same]

/-- The scope of a method with these type parameters in a class with these. -/
def ofLists (method class' : List TypeParameter) : Erasure :=
  ⟨(method.map bindingOf).reverse ++ (class'.map bindingOf).reverse⟩

theorem nest_render {ps : Option (List TypeParameter)} (named : ∀ p ∈ ps.getD [], p.Named) (scope : Erasure) :
    scope.nest (ps.map renderParameters) = ⟨((ps.getD []).map bindingOf).reverse ++ scope.bindings⟩ := by
  cases ps with
  | none => simp [nest]
  | some ps =>
    have each : ps.map (fun p => binding p.render) = ps.map bindingOf :=
      List.map_congr_left fun p mem => binding_render_eq (named p mem)
    rw [Option.getD_some] at named ⊢
    rw [← each, ← bindingsOf_render named]
    rfl

/-- The scope of a method in a class. -/
theorem nest_nest_render {class' method : Option (List TypeParameter)}
    (named : ∀ p ∈ method.getD [] ++ class'.getD [], p.Named) :
    (empty.nest (class'.map renderParameters)).nest (method.map renderParameters) =
      ofLists (method.getD []) (class'.getD []) := by
  rw [nest_render fun p mem => named p (List.mem_append_left _ mem),
    nest_render fun p mem => named p (List.mem_append_right _ mem)]
  simp [ofLists, empty]

/-- What the only parameter of a name binds in a list. -/
theorem find?_reverse_map {ps : List TypeParameter} {p : TypeParameter} (declared : p ∈ ps)
    (once : ∀ q ∈ ps, q.name = p.name → q = p) :
    (ps.map bindingOf).reverse.find? (fun entry => entry.1 == p.name) = some (bindingOf p) := by
  have there : ((ps.map bindingOf).reverse.find? (fun entry => entry.1 == p.name)).isSome := by
    rw [List.find?_isSome]
    exact ⟨bindingOf p, by simpa using ⟨p, declared, rfl⟩, by simp [bindingOf]⟩
  obtain ⟨entry, found⟩ := Option.isSome_iff_exists.1 there
  have same := List.find?_some found
  have listed := List.mem_of_find?_eq_some found
  obtain ⟨q, inList, rfl⟩ := List.mem_map.1 (List.mem_reverse.1 listed)
  obtain rfl := once q inList (by simpa [bindingOf] using same)
  exact found

theorem find?_reverse_map_eq_none {ps : List TypeParameter} {name : List Char} (free : ∀ q ∈ ps, q.name ≠ name) :
    (ps.map bindingOf).reverse.find? (fun entry => entry.1 == name) = none := by
  rw [List.find?_eq_none]
  intro entry mem
  obtain ⟨q, inList, rfl⟩ := List.mem_map.1 (List.mem_reverse.1 mem)
  simpa [bindingOf] using free q inList

theorem lookup?_ofLists_method {method class' : List TypeParameter} {p : TypeParameter} (declared : p ∈ method)
    (once : ∀ q ∈ method, q.name = p.name → q = p) :
    (ofLists method class').lookup? p.name = some p.first.erased := by
  simp [lookup?, ofLists, find?_reverse_map declared once, bindingOf]

theorem lookup?_ofLists_class {method class' : List TypeParameter} {p : TypeParameter}
    (further : ∀ q ∈ method, q.name ≠ p.name) (declared : p ∈ class')
    (once : ∀ q ∈ class', q.name = p.name → q = p) :
    (ofLists method class').lookup? p.name = some p.first.erased := by
  simp [lookup?, ofLists, find?_reverse_map_eq_none further, find?_reverse_map declared once, bindingOf]

/-- Only what is declared is found. -/
theorem exists_of_lookup?_ofLists {method class' : List TypeParameter} {name bound : List Char}
    (found : (ofLists method class').lookup? name = some bound) : ∃ p ∈ method ++ class', p.name = name := by
  obtain ⟨entry, here, -⟩ := Option.map_eq_some_iff.1 found
  have same := List.find?_some here
  have listed := List.mem_of_find?_eq_some here
  simp only [ofLists, ← List.map_reverse, ← List.map_append, List.mem_map] at listed
  obtain ⟨p, mem, rfl⟩ := listed
  refine ⟨p, ?_, by simpa [bindingOf] using same⟩
  simpa using mem

/-! ### Words of a text -/

/-- A part of a text that no character of a name precedes or follows. -/
def IsWordOf (word text : List Char) : Prop :=
  ∃ before after, text = before ++ word ++ after ∧ (∀ c ∈ before.getLast?, isNameChar c = false) ∧
    ∀ c ∈ after.head?, isNameChar c = false

theorem isWordOf_self (t : List Char) : IsWordOf t t := ⟨[], [], by simp, by simp, by simp⟩

theorem replace_of_free {name : List Char} (free : scope.lookup? name = none) : scope.replace name = name := by
  unfold Erasure.replace resolve?
  split
  · rename_i none
    exact (List.isEmpty_iff.1 none).symm
  · simp [free]

/-- A text none of whose words is a variable stays as it is. -/
theorem replaceAll_of_free {t : List Char}
    (free : ∀ word, (∀ c ∈ word, isNameChar c) → IsWordOf word t → scope.lookup? word = none) :
    scope.replaceAll [] t = t := by
  -- the induction is on what is left, after what ends in no character of a name and the part of a name read
  suffices walk : ∀ before name, (∀ c ∈ before.getLast?, isNameChar c = false) → (∀ c ∈ name, isNameChar c) →
      (∀ word, (∀ c ∈ word, isNameChar c) → IsWordOf word (before ++ name ++ t) → scope.lookup? word = none) →
      scope.replaceAll name t = name ++ t by
    simpa using walk [] [] (by simp) (by simp) (by simpa using free)
  clear free
  induction t with
  | nil =>
    intro before name apart named free
    rw [replaceAll, List.append_nil]
    exact replace_of_free (free name named ⟨before, [], by simp, apart, by simp⟩)
  | cons c t ih =>
    intro before name apart named free
    rw [replaceAll]
    split
    · rename_i part
      rw [ih before (name ++ [c]) apart (fun d mem => ?_) (by simpa using free)]
      · simp
      · rcases List.mem_append.1 mem with mem | mem
        · exact named d mem
        · obtain rfl := List.mem_singleton.1 mem
          exact part
    · rename_i other
      rw [replace_of_free (free name named ⟨before, c :: t, rfl, apart, by simpa using other⟩),
        ih (before ++ name ++ [c]) [] (by simpa using other) (by simp) (by simpa using free)]
      simp

/-- Without variables nothing is replaced, so that it does not matter whether there are any. -/
theorem erase_eq (text : List Char) : scope.erase text = scope.replaceAll [] (stripGenerics text) := by
  unfold Erasure.erase
  split
  · rename_i none
    refine (replaceAll_of_free fun word _ _ => ?_).symm
    simp [lookup?, List.isEmpty_iff.1 none]
  · rfl

end Erasure

/-! ### The end of the bounds -/

/-- Type parameters whose names the text can find: a method's and those of its class. None is named in the
bounds of the class what another one in the method is, so that these bounds mean the same inside the method. -/
structure Declared (method class' : List TypeParameter) : Prop where
  named : ∀ p ∈ method ++ class', p.Named
  letters : ∀ p ∈ method ++ class', ∀ c ∈ p.name, isNameChar c
  stay : ∀ p ∈ class', ∀ name, p.first = .variable name → ∀ q ∈ method, q.name ≠ name

theorem TypeParameter.Named.first {p : TypeParameter} (h : p.Named) : p.first.Legal := by
  unfold TypeParameter.first
  cases bounds : p.bounds with
  | nil => exact ⟨.of_pieces (by decide), trivial, trivial⟩
  | cons b more => exact h.bounds b (by simp [bounds])

/-- The name of a class is the same whether its nested classes are part of it or apart. -/
theorem dotted_append_erasedNested {nested : List NestedType} (legal : LegalNested nested) (name : List Char) :
    dotted (name ++ erasedNested nested) = dotted name ++ erasedNested nested := by
  have noSlash : '/' ∉ erasedNested nested := fun mem => absurd ((flat_erasedNested legal).1 '/' mem) (by decide)
  have same : replaceChar '/' '.' (erasedNested nested) = erasedNested nested := replaceChar_of_notMem noSlash
  calc dotted (name ++ erasedNested nested)
      = replaceChar '/' '.' name ++ replaceChar '/' '.' (erasedNested nested) := List.map_append
    _ = dotted name ++ erasedNested nested := by rw [same, dotted]

/-- Without a variable nothing is left to do but to drop arguments. -/
theorem render_erasedClass {name : List Char} {arguments : Option (List TypeArgument)} {nested : List NestedType}
    (legal : (JavaType.classType name arguments nested).Legal) :
    (JavaType.classType (name ++ erasedNested nested) none []).render =
      (JavaType.classType name arguments nested).erased := by
  simp [JavaType.render, JavaType.erased, renderArguments?, renderNested, dotted_append_erasedNested legal.2.2]

namespace Erasure

variable {method class' : List TypeParameter} {t u : JavaType}

/-- What a list declares, if it is the only list. -/
theorem eq_nil_of_singleton {α : Type} {inner outer : List α} {a b : α} (h : inner ++ a :: outer = [b]) :
    inner = [] ∧ a = b ∧ outer = [] := by
  cases inner with
  | nil => simpa using h
  | cons c inner => simp at h

/-- The bounds of a class lead to the erasure by the rules of the language. -/
theorem follows_of_class (declared : Declared method class') (h : Erases [class'] t u) (legal : t.Legal)
    (noArray : t.isArray = false) (visible : ∀ name, t = .variable name → ∀ q ∈ method, q.name ≠ name)
    (ends : (ofLists method class').lookup? u.render = none) :
    ∃ passed, (ofLists method class').Follows passed t.erased u.render := by
  generalize lists : [class'] = scopes at h
  induction h with
  | primitive p => exact ⟨_, .stop ends⟩
  | array element => cases noArray
  | classType name arguments nested => exact ⟨[], by rw [← render_erasedClass legal]; exact .stop ends⟩
  | @typeVariable inner ps outer name p u further mem named once straight bound ih =>
    obtain ⟨rfl, rfl, rfl⟩ := eq_nil_of_singleton lists.symm
    subst named
    have found := lookup?_ofLists_class (visible _ rfl) mem once
    obtain ⟨passed, follows⟩ := ih (declared.named p (by simp [mem])).first straight
      (fun name same => declared.stay p mem name same) ends rfl
    exact ⟨_, .step found follows⟩

/-- The bounds of a method and its class lead to the erasure by the rules of the language. -/
theorem follows_of_method (declared : Declared method class') (h : Erases [method, class'] t u) (legal : t.Legal)
    (noArray : t.isArray = false) (ends : (ofLists method class').lookup? u.render = none) :
    ∃ passed, (ofLists method class').Follows passed t.erased u.render := by
  generalize lists : [method, class'] = scopes at h
  induction h with
  | primitive p => exact ⟨_, .stop ends⟩
  | array element => cases noArray
  | classType name arguments nested => exact ⟨[], by rw [← render_erasedClass legal]; exact .stop ends⟩
  | @typeVariable inner ps outer name p u further mem named once straight bound ih =>
    subst named
    cases inner with
    | nil =>
      obtain ⟨rfl, rfl⟩ : method = ps ∧ outer = [class'] := by simpa [eq_comm] using lists
      obtain ⟨passed, follows⟩ := ih (declared.named p (by simp [mem])).first straight ends rfl
      exact ⟨_, .step (lookup?_ofLists_method mem once) follows⟩
    | cons list inner =>
      obtain ⟨rfl, rest⟩ := List.cons.inj lists
      obtain ⟨rfl, rfl, rfl⟩ := eq_nil_of_singleton rest.symm
      have nothing : ∀ list ∈ ([] : List (List TypeParameter)), ∀ q ∈ list, q.name ≠ p.name := by simp
      have inClass : Erases [ps] (.variable p.name) u := .typeVariable nothing mem rfl once straight bound
      exact follows_of_class declared inClass legal rfl
        (fun name same q inMethod => by
          obtain rfl := JavaType.variable.inj same
          exact further method (by simp) q inMethod) ends

/-! ### Erased types -/

/-- A word of a type is one of arrays of it. -/
theorem IsWordOf.array {word : List Char} {element : JavaType} (h : IsWordOf word element.render) :
    IsWordOf word (JavaType.array element).render := by
  obtain ⟨before, after, text, left, right⟩ := h
  refine ⟨before, after ++ ['[', ']'], by simp [JavaType.render, text], left, ?_⟩
  cases after with
  | nil => decide
  | cons c after => simpa using right

theorem lookup?_eq_none_of_word {text word : List Char}
    (apart : ∀ p ∈ method ++ class', ¬IsWordOf p.name text) (part : IsWordOf word text) :
    (ofLists method class').lookup? word = none := by
  by_contra bound
  obtain ⟨_, found⟩ := Option.ne_none_iff_exists'.1 bound
  obtain ⟨p, mem, rfl⟩ := exists_of_lookup?_ofLists found
  exact apart p mem part

/-- The erased text of a type is its erasure by the rules of the language, if no word of the latter is the
name of a variable in scope. -/
theorem erase_render (declared : Declared method class') (h : Erases [method, class'] t u) (legal : t.Legal)
    (apart : ∀ p ∈ method ++ class', ¬IsWordOf p.name u.render) :
    (ofLists method class').erase t.render = u.render := by
  rw [erase_eq, stripGenerics_render legal]
  generalize lists : [method, class'] = scopes at h
  induction h with
  | primitive p => exact replaceAll_of_free fun word _ part => lookup?_eq_none_of_word apart part
  | @array scopes t u element ih =>
    have inner := ih legal (fun p mem part => apart p mem part.array) lists
    rw [JavaType.erased, replaceAll_dimension, inner]
    rfl
  | classType name arguments nested =>
    rw [← render_erasedClass legal]
    exact replaceAll_of_free fun word _ part => lookup?_eq_none_of_word apart part
  | @typeVariable inner ps outer name p u further mem named once straight bound =>
    have whole : Erases [method, class'] (.variable name) u :=
      lists ▸ .typeVariable further mem named once straight bound
    have inLists : p ∈ method ++ class' := by
      have inScopes : p ∈ [method, class'].flatten := by simp [lists, mem]
      simpa using inScopes
    have letters : ∀ c ∈ name, isNameChar c := named ▸ declared.letters p inLists
    obtain ⟨passed, follows⟩ := follows_of_method declared whole legal rfl
      (lookup?_eq_none_of_word apart (isWordOf_self _))
    rw [JavaType.erased, replaceAll_of_name letters, List.nil_append]
    exact follows.replace (IsIdentifier.filled legal)

/-- A list of types is erased type by type. -/
theorem erase_renderTypes (declared : Declared method class') {ts us : List JavaType}
    (h : List.Forall₂ (Erases [method, class']) ts us) (legal : ∀ t ∈ ts, t.Legal)
    (apart : ∀ u ∈ us, ∀ p ∈ method ++ class', ¬IsWordOf p.name u.render) :
    (ofLists method class').erase (renderTypes ts) = renderTypes us := by
  have each : ts.map (fun t => (ofLists method class').erase t.render) = us.map JavaType.render := by
    induction h with
    | nil => rfl
    | cons first more ih =>
      rw [List.map_cons, List.map_cons, erase_render declared first (legal _ (by simp)) (apart _ (by simp)),
        ih (fun t mem => legal t (by simp [mem])) fun u mem => apart u (by simp [mem])]
  rw [erase_types legal, each, renderTypes]

end Erasure

/-! ### Brackets at the end -/

theorem getLast?_append_ne {c : Char} {a b : List Char} (first : a.getLast? ≠ some c) (later : b.getLast? ≠ some c) :
    (a ++ b).getLast? ≠ some c := by
  rw [List.getLast?_append]
  cases last : b.getLast? with
  | none => simpa using first
  | some d => simpa [last] using later

theorem getLast?_ne_of_notMem {c : Char} {t : List Char} (free : c ∉ t) : t.getLast? ≠ some c :=
  fun last => free (List.mem_of_getLast? last)

theorem IsIdentifier.noBracket {t : List Char} (h : IsIdentifier t) : ']' ∉ t := fun mem =>
  (notMem_of_isNamePart (h.parts ']' mem)).1 (by decide)

theorem getLast?_renderArguments (arguments : Option (List TypeArgument)) :
    (renderArguments? arguments).getLast? ≠ some ']' := by
  cases arguments with
  | none => simp [renderArguments?]
  | some list =>
    rw [renderArguments?, List.getLast?_concat]
    decide

theorem getLast?_renderNested {nested : List NestedType} (legal : LegalNested nested) :
    (renderNested nested).getLast? ≠ some ']' := by
  induction nested with
  | nil => simp [renderNested]
  | cons n nested ih =>
    obtain ⟨name, arguments⟩ := n
    obtain ⟨named, -, inside⟩ := legal
    have dollar : ']' ∉ '$' :: name := by simp [named.noBracket]
    exact getLast?_append_ne (getLast?_append_ne (getLast?_ne_of_notMem dollar) (getLast?_renderArguments _))
      (ih inside)

/-- Only an array ends with a bracket. -/
theorem getLast?_render {t : JavaType} (legal : t.Legal) (noArray : t.isArray = false) :
    t.render.getLast? ≠ some ']' := by
  cases t with
  | primitive p => exact getLast?_ne_of_notMem (primitive_parts p).noBracket
  | «variable» name => exact getLast?_ne_of_notMem (IsIdentifier.noBracket legal)
  | array element => cases noArray
  | classType name arguments nested =>
    have noBracket : ']' ∉ dotted name := by
      intro mem
      rcases IsQualified.parts legal.1 ']' mem with part | dot
      · exact (notMem_of_isNamePart part).1 (by decide)
      · cases dot
    exact getLast?_append_ne (getLast?_append_ne (getLast?_ne_of_notMem noBracket) (getLast?_renderArguments _))
      (getLast?_renderNested legal.2.2)

end ApiSurface
