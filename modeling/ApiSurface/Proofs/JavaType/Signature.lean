import ApiSurface.JavaType.Descriptor
import ApiSurface.Proofs.JavaType.Erasure
import ApiSurface.Proofs.Result

/-!
Types as compiled classes hold them, written and read back. The encoding of a type ends by itself: with the
letter of a primitive type, or with a semicolon behind a name and whatever brackets follow it, so that a
reader gives the type back in front of anything. Main statements: each reader takes exactly one encoded
thing (`readReference_signature` and the lemmas around it, by recursion on types), and a signature of a
field, a class or a method is read back whole, with each part of it one token of a line
(`Descriptor.of_signature`).
-/

namespace ApiSurface

open ApiSurface.Text ApiSurface.Line

/-! ### Encoded types -/

/-- The name of a class as compiled classes hold it: names with slashes between them. -/
def IsInternal (t : List Char) : Prop := ∃ parts, parts ≠ [] ∧ t = join ['/'] parts ∧ ∀ p ∈ parts, IsIdentifier p

theorem isInternal_iff {t : List Char} : IsInternal t ↔ ∀ p ∈ pieces '/' t, IsIdentifier p := by
  refine ⟨?_, fun h => ⟨_, pieces_ne_nil _ _, (join_pieces _ _).symm, h⟩⟩
  rintro ⟨parts, some, rfl, each⟩
  have noSlash : ∀ p ∈ parts, '/' ∉ p := by
    intro p inList mem
    exact (notMem_of_isNamePart ((each p inList).parts '/' mem)).2 (by simp)
  rwa [pieces_join some noSlash]

instance (t : List Char) : Decidable (IsInternal t) := decidable_of_iff _ isInternal_iff.symm

/-- Whether a type is none of the primitive ones. -/
def JavaType.isReference : JavaType → Bool
  | .primitive _ => false
  | _ => true

mutual

/-- A type that compiled classes can hold: all names are names, and only references are type arguments. -/
def JavaType.Formed : JavaType → Prop
  | .primitive _ => True
  | .variable name => IsIdentifier name
  | .array element => element.Formed
  | .classType name arguments nested => IsInternal name ∧ FormedArguments? arguments ∧ FormedNested nested

/-- Type arguments that compiled classes can hold, if there are any. -/
def FormedArguments? : Option (List TypeArgument) → Prop
  | none => True
  | some arguments => FormedArguments arguments

/-- Type arguments that compiled classes can hold. -/
def FormedArguments : List TypeArgument → Prop
  | [] => True
  | a :: more => a.Formed ∧ FormedArguments more

/-- A type argument that compiled classes can hold. -/
def TypeArgument.Formed : TypeArgument → Prop
  | .any => True
  | .extending bound => bound.isReference ∧ bound.Formed
  | .superOf bound => bound.isReference ∧ bound.Formed
  | .exactly type => type.isReference ∧ type.Formed

/-- Nested classes that compiled classes can hold. -/
def FormedNested : List NestedType → Prop
  | [] => True
  | .mk name arguments :: more => IsIdentifier name ∧ FormedArguments? arguments ∧ FormedNested more

end

mutual

/-- Whether compiled classes can hold a type is decided along the type. -/
def JavaType.decidableFormed : (t : JavaType) → Decidable t.Formed
  | .primitive _ => inferInstanceAs (Decidable True)
  | .variable name => inferInstanceAs (Decidable (IsIdentifier name))
  | .array element => element.decidableFormed
  | .classType name arguments nested =>
    have := decidableFormedArguments? arguments
    have := decidableFormedNested nested
    inferInstanceAs (Decidable (IsInternal name ∧ FormedArguments? arguments ∧ FormedNested nested))

/-- Along the type arguments, if there are any. -/
def decidableFormedArguments? : (arguments : Option (List TypeArgument)) → Decidable (FormedArguments? arguments)
  | none => inferInstanceAs (Decidable True)
  | some arguments => decidableFormedArguments arguments

/-- Along the type arguments. -/
def decidableFormedArguments : (l : List TypeArgument) → Decidable (FormedArguments l)
  | [] => inferInstanceAs (Decidable True)
  | a :: more =>
    have := a.decidableFormed
    have := decidableFormedArguments more
    inferInstanceAs (Decidable (a.Formed ∧ FormedArguments more))

/-- Along the bound of a type argument. -/
def TypeArgument.decidableFormed : (a : TypeArgument) → Decidable a.Formed
  | .any => inferInstanceAs (Decidable True)
  | .extending bound | .superOf bound | .exactly bound =>
    have := bound.decidableFormed
    inferInstanceAs (Decidable (bound.isReference ∧ bound.Formed))

/-- Along the nested classes. -/
def decidableFormedNested : (nested : List NestedType) → Decidable (FormedNested nested)
  | [] => inferInstanceAs (Decidable True)
  | .mk name arguments :: more =>
    have := decidableFormedArguments? arguments
    have := decidableFormedNested more
    inferInstanceAs (Decidable (IsIdentifier name ∧ FormedArguments? arguments ∧ FormedNested more))

end

instance (t : JavaType) : Decidable t.Formed := t.decidableFormed

mutual

/-- The type as compiled classes hold it. -/
def JavaType.signature : JavaType → List Char
  | .primitive p => [p.letter]
  | .variable name => 'T' :: name ++ [';']
  | .array element => '[' :: element.signature
  | .classType name arguments nested =>
    'L' :: name ++ signatureArguments? arguments ++ signatureNested nested

/-- Type arguments between angle brackets, if there are any brackets. -/
def signatureArguments? : Option (List TypeArgument) → List Char
  | none => []
  | some arguments => '<' :: signatureArguments arguments ++ ['>']

/-- Type arguments one after another. -/
def signatureArguments : List TypeArgument → List Char
  | [] => []
  | a :: more => a.signature ++ signatureArguments more

/-- One type argument, a bound with the sign of its direction. -/
def TypeArgument.signature : TypeArgument → List Char
  | .any => ['*']
  | .extending bound => '+' :: bound.signature
  | .superOf bound => '-' :: bound.signature
  | .exactly type => type.signature

/-- Nested classes, each after a dot, and the semicolon that ends a class type. -/
def signatureNested : List NestedType → List Char
  | [] => [';']
  | .mk name arguments :: more => '.' :: name ++ signatureArguments? arguments ++ signatureNested more

end

/-- A declared type variable, with a class bound or at least one interface bound. -/
structure BoundedParameter where
  name : List Char
  classBound : Option JavaType
  interfaceBounds : List JavaType
  bounded : classBound.isSome ∨ interfaceBounds ≠ []

namespace BoundedParameter

/-- The parameter with its bounds in one list. -/
def plain (p : BoundedParameter) : TypeParameter := ⟨p.name, p.classBound.toList ++ p.interfaceBounds⟩

/-- The parameter as compiled classes hold it: a colon in front of each bound, and of a missing class bound. -/
def signature (p : BoundedParameter) : List Char :=
  p.name ++ ':' :: (p.classBound.toList.flatMap JavaType.signature ++
    p.interfaceBounds.flatMap fun b => ':' :: b.signature)

/-- A parameter whose names are names and whose bounds are references. -/
structure Formed (p : BoundedParameter) : Prop where
  name : IsIdentifier p.name
  bounds : ∀ b ∈ p.plain.bounds, b.isReference ∧ b.Formed

instance (p : BoundedParameter) : Decidable p.Formed :=
  decidable_of_iff (IsIdentifier p.name ∧ ∀ b ∈ p.plain.bounds, b.isReference ∧ b.Formed)
    ⟨fun h => ⟨h.1, h.2⟩, fun h => ⟨h.name, h.bounds⟩⟩

end BoundedParameter

/-- Type parameters between angle brackets, if there are any. -/
def signatureParameters? : Option (List BoundedParameter) → List Char
  | none => []
  | some ps => '<' :: ps.flatMap BoundedParameter.signature ++ ['>']

/-- What a class declares about its type, with the kinds of bounds told apart. -/
structure DeclaredClass where
  parameters : Option (List BoundedParameter)
  superclass : JavaType
  interfaces : List JavaType

namespace DeclaredClass

/-- The signature that stands for the declaration. -/
def plain (c : DeclaredClass) : ClassSignature :=
  ⟨c.parameters.map (·.map BoundedParameter.plain), c.superclass, c.interfaces⟩

/-- The declaration as compiled classes hold it. -/
def signature (c : DeclaredClass) : List Char :=
  signatureParameters? c.parameters ++ (c.superclass.signature ++ c.interfaces.flatMap JavaType.signature)

/-- A declaration that compiled classes can hold. -/
structure Formed (c : DeclaredClass) : Prop where
  parameters : ∀ ps ∈ c.parameters, ∀ p ∈ ps, p.Formed
  superclass : c.superclass.isReference ∧ c.superclass.Formed
  interfaces : ∀ t ∈ c.interfaces, t.isReference ∧ t.Formed

instance (c : DeclaredClass) : Decidable c.Formed :=
  decidable_of_iff ((∀ ps ∈ c.parameters, ∀ p ∈ ps, p.Formed) ∧
      (c.superclass.isReference ∧ c.superclass.Formed) ∧ ∀ t ∈ c.interfaces, t.isReference ∧ t.Formed)
    ⟨fun h => ⟨h.1, h.2.1, h.2.2⟩, fun h => ⟨h.parameters, h.superclass, h.interfaces⟩⟩

end DeclaredClass

/-- What a method declares about its type, with the kinds of bounds told apart. -/
structure DeclaredMethod where
  parameters : Option (List BoundedParameter)
  arguments : List JavaType
  result : JavaType
  throws : List JavaType

namespace DeclaredMethod

/-- The signature that stands for the declaration. -/
def plain (m : DeclaredMethod) : MethodSignature :=
  ⟨m.parameters.map (·.map BoundedParameter.plain), m.arguments, m.result, m.throws⟩

/-- The declaration as compiled classes hold it. -/
def signature (m : DeclaredMethod) : List Char :=
  signatureParameters? m.parameters ++ ('(' :: (m.arguments.flatMap JavaType.signature ++
    ')' :: (m.result.signature ++ m.throws.flatMap fun t => '^' :: t.signature)))

/-- A declaration that compiled classes can hold. -/
structure Formed (m : DeclaredMethod) : Prop where
  parameters : ∀ ps ∈ m.parameters, ∀ p ∈ ps, p.Formed
  arguments : ∀ t ∈ m.arguments, t.Formed
  result : m.result.Formed
  throws : ∀ t ∈ m.throws, t.isReference ∧ t.Formed

instance (m : DeclaredMethod) : Decidable m.Formed :=
  decidable_of_iff ((∀ ps ∈ m.parameters, ∀ p ∈ ps, p.Formed) ∧ (∀ t ∈ m.arguments, t.Formed) ∧ m.result.Formed ∧
      ∀ t ∈ m.throws, t.isReference ∧ t.Formed)
    ⟨fun h => ⟨h.1, h.2.1, h.2.2.1, h.2.2.2⟩, fun h => ⟨h.parameters, h.arguments, h.result, h.throws⟩⟩

end DeclaredMethod

/-! ### Names in an encoding -/

/-- In source a class name has dots. -/
theorem IsInternal.dotted {t : List Char} (h : IsInternal t) : IsQualified (dotted t) := by
  obtain ⟨parts, some, rfl, each⟩ := h
  have noSlash : ∀ p ∈ parts, '/' ∉ p := by
    intro p inList mem
    exact (notMem_of_isNamePart ((each p inList).parts '/' mem)).2 (by simp)
  exact ⟨parts, some, replaceChar_join noSlash, each⟩

theorem IsInternal.filled {t : List Char} (h : IsInternal t) : t ≠ [] := by
  intro none
  have named := h.dotted.filled
  rw [none] at named
  exact named rfl

/-- A class name holds the characters of names and slashes. -/
theorem IsInternal.parts {t : List Char} (h : IsInternal t) : ∀ c ∈ t, isNamePart c ∨ c = '/' := by
  obtain ⟨parts, -, rfl, each⟩ := h
  intro c mem
  rcases mem_or_of_mem_join mem with slash | ⟨p, inList, inside⟩
  · exact .inr (by simpa using slash)
  · exact .inl ((each p inList).parts c inside)

mutual

/-- What compiled classes can hold can be written in source. -/
theorem JavaType.Formed.legal : ∀ {t : JavaType}, t.Formed → t.Legal
  | .primitive _, _ => trivial
  | .variable _, h => h
  | .array element, h => JavaType.Formed.legal (t := element) h
  | .classType _ _ _, h => ⟨h.1.dotted, legalArguments?_of_formed h.2.1, legalNested_of_formed h.2.2⟩

theorem legalArguments?_of_formed : ∀ {arguments : Option (List TypeArgument)}, FormedArguments? arguments →
    LegalArguments? arguments
  | none, _ => trivial
  | some l, h => legalArguments_of_formed (l := l) h

theorem legalArguments_of_formed : ∀ {l : List TypeArgument}, FormedArguments l → LegalArguments l
  | [], _ => trivial
  | _ :: _, h => ⟨TypeArgument.Formed.legal h.1, legalArguments_of_formed h.2⟩

theorem TypeArgument.Formed.legal : ∀ {a : TypeArgument}, a.Formed → a.Legal
  | .any, _ => trivial
  | .extending bound, h => JavaType.Formed.legal (t := bound) h.2
  | .superOf bound, h => JavaType.Formed.legal (t := bound) h.2
  | .exactly type, h => JavaType.Formed.legal (t := type) h.2

theorem legalNested_of_formed : ∀ {nested : List NestedType}, FormedNested nested → LegalNested nested
  | [], _ => trivial
  | .mk _ _ :: _, h => ⟨h.1, legalArguments?_of_formed h.2.1, legalNested_of_formed h.2.2⟩

end

theorem BoundedParameter.Formed.named {p : BoundedParameter} (h : p.Formed) : p.plain.Named :=
  ⟨h.name, fun b mem => (h.bounds b mem).2.legal⟩

namespace Descriptor

/-- What ends a name inside a signature. -/
theorem notMem_stops_of_isNamePart {c : Char} (h : isNamePart c ∨ c = '/') : c ∉ ['<', '.', ';', ':'] := by
  have none : ∀ d ∈ ['<', '.', ';', ':'], isNamePart d = false ∧ d ≠ '/' := by decide
  intro mem
  obtain ⟨noPart, noSlash⟩ := none c mem
  rcases h with part | slash
  · rw [part] at noPart
    cases noPart
  · exact noSlash slash

/-- A name is taken up to the character that ends it. -/
theorem identifier_append {stops name rest : List Char} (filled : name ≠ [])
    (parts : ∀ c ∈ name, isNamePart c ∨ c = '/') (sub : stops ⊆ ['<', '.', ';', ':'])
    (ends : ∀ c ∈ rest.head?, c ∈ stops) : identifier stops (name ++ rest) = .ok (name, rest) := by
  have cut : cutBefore (· ∈ stops) (name ++ rest) = (name, rest) := by
    refine cutBefore_append (fun c mem => ?_) fun c mem => by simpa using ends c mem
    have free : c ∉ stops := fun stop => notMem_stops_of_isNamePart (parts c mem) (sub stop)
    simpa using free
  have named : name.isEmpty = false := by simpa using filled
  simp [identifier, cut, named]

/-! ### Types read back -/

/-- A reference begins with one of three characters. -/
theorem head_signature : ∀ {t : JavaType}, t.isReference →
    ∃ c cs, t.signature = c :: cs ∧ (c = 'L' ∨ c = 'T' ∨ c = '[')
  | .variable name, _ => ⟨'T', name ++ [';'], rfl, .inr (.inl rfl)⟩
  | .array element, _ => ⟨'[', element.signature, rfl, .inr (.inr rfl)⟩
  | .classType name arguments nested, _ =>
    ⟨'L', name ++ signatureArguments? arguments ++ signatureNested nested, rfl, .inl rfl⟩

/-- A type argument is not empty, and its first character closes nothing. -/
theorem head_argument {a : TypeArgument} (h : a.Formed) : ∃ c cs, a.signature = c :: cs ∧ c ≠ '>' := by
  cases a with
  | any => exact ⟨'*', [], rfl, by decide⟩
  | extending bound => exact ⟨'+', bound.signature, rfl, by decide⟩
  | superOf bound => exact ⟨'-', bound.signature, rfl, by decide⟩
  | exactly type =>
    obtain ⟨c, cs, shape, first⟩ := head_signature h.1
    refine ⟨c, cs, shape, ?_⟩
    rcases first with rfl | rfl | rfl <;> decide

/-- What follows the name of a class ends it. -/
theorem head_afterName (arguments : Option (List TypeArgument)) (nested : List NestedType) (rest : List Char) :
    ∀ c ∈ (signatureArguments? arguments ++ (signatureNested nested ++ rest)).head?, c ∈ nameStops := by
  intro c mem
  cases arguments with
  | some l =>
    obtain rfl : '<' = c := by simpa [signatureArguments?] using mem
    decide
  | none =>
    cases nested with
    | nil =>
      obtain rfl : ';' = c := by simpa [signatureArguments?, signatureNested] using mem
      decide
    | cons n nested =>
      obtain ⟨name, given⟩ := n
      obtain rfl : '.' = c := by simpa [signatureArguments?, signatureNested] using mem
      decide

/-- Behind the name and arguments of a class no angle bracket opens. -/
theorem head_signatureNested (nested : List NestedType) (rest : List Char) :
    ∃ c cs, signatureNested nested ++ rest = c :: cs ∧ c ≠ '<' := by
  cases nested with
  | nil => exact ⟨';', rest, rfl, by decide⟩
  | cons n nested =>
    obtain ⟨name, given⟩ := n
    exact ⟨'.', _, rfl, by decide⟩

theorem length_signatureNested_pos (nested : List NestedType) : 0 < (signatureNested nested).length := by
  cases nested with
  | nil => decide
  | cons n nested =>
    obtain ⟨name, given⟩ := n
    simp [signatureNested]

/-- A type is read like a reference, unless it is primitive. -/
theorem readType_of_readReference {t : JavaType} {depth : Nat} {rest : List Char}
    (h : t.isReference → readReference depth (t.signature ++ rest) = .ok (t, rest)) :
    readType (depth + 1) (t.signature ++ rest) = .ok (t, rest) := by
  by_cases ref : t.isReference
  · obtain ⟨c, cs, shape, first⟩ := head_signature ref
    have other : Primitive.ofLetter? c = none := by
      rcases first with rfl | rfl | rfl <;> decide
    have taken := h ref
    rw [shape, List.cons_append] at taken ⊢
    rw [readType, other]
    exact taken
  · cases t with
    | primitive p => simp [JavaType.signature, readType]
    | «variable» name => exact absurd rfl ref
    | array element => exact absurd rfl ref
    | classType name arguments nested => exact absurd rfl ref

-- One reader for each kind of thing, each with the depth that its text needs. The recursion is on the type,
-- and the rest stays unknown, since whatever follows has to be left alone.
mutual

/-- A reference is read back in front of anything, if the depth is twice its length. -/
theorem readReference_signature : ∀ {t : JavaType}, t.isReference → t.Formed → ∀ (depth : Nat),
    2 * t.signature.length ≤ depth → ∀ rest, readReference depth (t.signature ++ rest) = .ok (t, rest)
  | .variable name, _, h, depth, deep, rest => by
    have named : IsIdentifier name := h
    simp only [JavaType.signature, List.cons_append, List.length_cons, List.append_assoc] at deep ⊢
    obtain ⟨depth, rfl⟩ : ∃ d, depth = d + 1 := ⟨depth - 1, by omega⟩
    have taken : identifier [';'] (name ++ ';' :: rest) = .ok (name, ';' :: rest) :=
      identifier_append named.filled (fun c mem => .inl (named.parts c mem)) (by decide) (by simp)
    simp [readReference, taken, expect]
  | .array element, _, h, depth, deep, rest => by
    simp only [JavaType.signature, List.cons_append, List.length_cons] at deep ⊢
    obtain ⟨depth, rfl⟩ : ∃ d, depth = d + 2 := ⟨depth - 2, by omega⟩
    have inner : readType (depth + 1) (element.signature ++ rest) = .ok (element, rest) :=
      readType_of_readReference fun ref =>
        readReference_signature (t := element) ref h depth (by omega) rest
    simp [readReference, inner]
  | .classType name arguments nested, _, h, depth, deep, rest => by
    obtain ⟨named, given, inside⟩ := h
    have ends := length_signatureNested_pos nested
    simp only [JavaType.signature, List.cons_append, List.length_cons, List.length_append,
      List.append_assoc] at deep ⊢
    obtain ⟨depth, rfl⟩ : ∃ d, depth = d + 1 := ⟨depth - 1, by omega⟩
    have taken := identifier_append named.filled named.parts (by decide) (head_afterName arguments nested rest)
    obtain ⟨c, cs, shape, noAngle⟩ := head_signatureNested nested rest
    have args := readArguments?_signature given depth (by omega) (signatureNested nested ++ rest)
      (by simp [shape, noAngle])
    have more := readNested_signature inside depth (by omega) rest
    simp [readReference, taken, args, more]

/-- Type arguments are read back in front of anything but more of them. -/
theorem readArguments?_signature : ∀ {arguments : Option (List TypeArgument)}, FormedArguments? arguments →
    ∀ (depth : Nat), 2 * (signatureArguments? arguments).length + 1 ≤ depth → ∀ rest,
      (∀ c ∈ rest.head?, c ≠ '<') → readArguments? depth (signatureArguments? arguments ++ rest) = .ok (arguments, rest)
  | none, _, depth, deep, rest, other => by
    obtain ⟨depth, rfl⟩ : ∃ d, depth = d + 1 := ⟨depth - 1, by omega⟩
    cases rest with
    | nil => rfl
    | cons c rest => simp [signatureArguments?, readArguments?, other c (by simp)]
  | some l, h, depth, deep, rest, _ => by
    simp only [signatureArguments?, List.cons_append, List.length_cons, List.length_append, List.length_nil,
      List.append_assoc] at deep ⊢
    obtain ⟨depth, rfl⟩ : ∃ d, depth = d + 1 := ⟨depth - 1, by omega⟩
    have inner := readArguments_signature (l := l) h depth (by omega) rest
    simp [readArguments?, inner]

/-- Type arguments and the bracket behind them are read back in front of anything. -/
theorem readArguments_signature : ∀ {l : List TypeArgument}, FormedArguments l → ∀ (depth : Nat),
    2 * (signatureArguments l).length + 2 ≤ depth → ∀ rest,
      readArguments depth (signatureArguments l ++ '>' :: rest) = .ok (l, rest)
  | [], _, depth, deep, rest => by
    obtain ⟨depth, rfl⟩ : ∃ d, depth = d + 1 := ⟨depth - 1, by omega⟩
    simp [signatureArguments, readArguments]
  | a :: more, h, depth, deep, rest => by
    obtain ⟨c, cs, shape, noClose⟩ := head_argument h.1
    have long : a.signature.length = cs.length + 1 := by rw [shape, List.length_cons]
    simp only [signatureArguments, List.length_append, List.append_assoc] at deep ⊢
    obtain ⟨depth, rfl⟩ : ∃ d, depth = d + 1 := ⟨depth - 1, by omega⟩
    have first := readArgument_signature h.1 shape depth (by omega)
      (signatureArguments more ++ '>' :: rest)
    have later := readArguments_signature h.2 depth (by omega) rest
    rw [shape, List.cons_append, readArguments, if_neg noClose, first]
    simp [later]

/-- A type argument is read back in front of anything, from its first character on. -/
theorem readArgument_signature : ∀ {a : TypeArgument}, a.Formed → ∀ {c cs}, a.signature = c :: cs →
    ∀ (depth : Nat), 2 * a.signature.length + 1 ≤ depth → ∀ rest,
      readArgument depth c (cs ++ rest) = .ok (a, rest)
  | .any, _, c, cs, shape, depth, deep, rest => by
    obtain ⟨rfl, rfl⟩ := List.cons.inj shape
    obtain ⟨depth, rfl⟩ : ∃ d, depth = d + 1 := ⟨depth - 1, by omega⟩
    simp [readArgument]
  | .extending bound, h, c, cs, shape, depth, deep, rest => by
    obtain ⟨rfl, rfl⟩ := List.cons.inj shape
    simp only [TypeArgument.signature, List.length_cons] at deep
    obtain ⟨depth, rfl⟩ : ∃ d, depth = d + 1 := ⟨depth - 1, by omega⟩
    have inner := readReference_signature (t := bound) h.1 h.2 depth (by omega) rest
    simp [readArgument, inner]
  | .superOf bound, h, c, cs, shape, depth, deep, rest => by
    obtain ⟨rfl, rfl⟩ := List.cons.inj shape
    simp only [TypeArgument.signature, List.length_cons] at deep
    obtain ⟨depth, rfl⟩ : ∃ d, depth = d + 1 := ⟨depth - 1, by omega⟩
    have inner := readReference_signature (t := bound) h.1 h.2 depth (by omega) rest
    simp [readArgument, inner]
  | .exactly type, h, c, cs, shape, depth, deep, rest => by
    have whole : type.signature = c :: cs := shape
    simp only [TypeArgument.signature] at deep
    obtain ⟨depth, rfl⟩ : ∃ d, depth = d + 1 := ⟨depth - 1, by omega⟩
    have inner := readReference_signature (t := type) h.1 h.2 depth (by omega) rest
    obtain ⟨d, ds, shape', first⟩ := head_signature h.1
    obtain ⟨rfl, rfl⟩ := List.cons.inj (whole.symm.trans shape')
    have noSign : c ≠ '*' ∧ c ≠ '+' ∧ c ≠ '-' := by
      rcases first with rfl | rfl | rfl <;> decide
    rw [whole, List.cons_append] at inner
    simp [readArgument, noSign, inner]

/-- Nested classes and the semicolon are read back in front of anything. -/
theorem readNested_signature : ∀ {nested : List NestedType}, FormedNested nested → ∀ (depth : Nat),
    2 * (signatureNested nested).length ≤ depth + 1 → ∀ rest,
      readNested depth (signatureNested nested ++ rest) = .ok (nested, rest)
  | [], _, depth, deep, rest => by
    simp only [signatureNested, List.length_cons, List.length_nil] at deep ⊢
    obtain ⟨depth, rfl⟩ : ∃ d, depth = d + 1 := ⟨depth - 1, by omega⟩
    simp [readNested]
  | .mk name arguments :: nested, h, depth, deep, rest => by
    obtain ⟨named, given, inside⟩ := h
    have filled := List.length_pos_iff.2 named.filled
    have ends := length_signatureNested_pos nested
    simp only [signatureNested, List.cons_append, List.length_cons, List.length_append,
      List.append_assoc] at deep ⊢
    obtain ⟨depth, rfl⟩ : ∃ d, depth = d + 1 := ⟨depth - 1, by omega⟩
    have taken := identifier_append named.filled (fun c mem => .inl (named.parts c mem)) (by decide)
      (head_afterName arguments nested rest)
    obtain ⟨c, cs, shape, noAngle⟩ := head_signatureNested nested rest
    have args := readArguments?_signature given depth (by omega) (signatureNested nested ++ rest)
      (by simp [shape, noAngle])
    have more := readNested_signature inside depth (by omega) rest
    simp [readNested, taken, args, more]

end

/-! ### Lists read back -/

theorem reference_signature {t : JavaType} (h : t.isReference ∧ t.Formed) (rest : List Char) :
    reference (t.signature ++ rest) = .ok (t, rest) := by
  refine readReference_signature h.1 h.2 _ ?_ rest
  simp only [depthFor, List.length_append]
  omega

theorem type_signature {t : JavaType} (h : t.Formed) (rest : List Char) :
    type (t.signature ++ rest) = .ok (t, rest) := by
  refine readType_of_readReference fun ref => readReference_signature ref h _ ?_ rest
  simp only [List.length_append]
  omega

/-- No type begins like what comes behind a list of types. -/
theorem head_type (t : JavaType) :
    ∃ c cs, t.signature = c :: cs ∧ c ∉ [')', ':', '>', '^'] := by
  cases t with
  | primitive p =>
    refine ⟨p.letter, [], rfl, ?_⟩
    cases p <;> decide
  | «variable» name => exact ⟨'T', _, rfl, by decide⟩
  | array element => exact ⟨'[', _, rfl, by decide⟩
  | classType name arguments nested => exact ⟨'L', _, rfl, by decide⟩

theorem length_le_flatMap {α : Type} {f : α → List Char} {l : List α} (filled : ∀ a ∈ l, f a ≠ []) :
    l.length ≤ (l.flatMap f).length := by
  have each : ∀ n ∈ l.map fun a => (f a).length, 1 ≤ n := by
    intro n mem
    obtain ⟨a, inList, rfl⟩ := List.mem_map.1 mem
    exact List.length_pos_iff.2 (filled a inList)
  have total := List.length_le_sum_of_one_le _ each
  rwa [List.length_map, ← List.length_flatMap] at total

/-- References with a mark in front of each are read back in front of anything but that mark. -/
theorem references_flatMap (more : Char) {ts : List JavaType} (h : ∀ t ∈ ts, t.isReference ∧ t.Formed)
    {count : Nat} (enough : ts.length ≤ count) (rest : List Char) (other : ∀ c ∈ rest.head?, c ≠ more) :
    references more count ((ts.flatMap fun t => more :: t.signature) ++ rest) = .ok (ts, rest) := by
  induction ts generalizing count with
  | nil =>
    cases count with
    | zero => rfl
    | succ count =>
      cases rest with
      | nil => rfl
      | cons c rest => simp [references, other c (by simp)]
  | cons t ts ih =>
    obtain ⟨count, rfl⟩ : ∃ n, count = n + 1 := ⟨count - 1, by simp at enough; omega⟩
    have first := reference_signature (h t (by simp)) ((ts.flatMap fun t => more :: t.signature) ++ rest)
    have later := ih (fun u mem => h u (by simp [mem])) (by simpa using enough)
    simp [references, first, later]

/-- The arguments of a method are read back in front of the parenthesis that ends them. -/
theorem readTypes_flatMap {ts : List JavaType} (h : ∀ t ∈ ts, t.Formed) {count : Nat} (enough : ts.length ≤ count)
    (rest : List Char) :
    readTypes count (ts.flatMap JavaType.signature ++ ')' :: rest) = .ok (ts, ')' :: rest) := by
  induction ts generalizing count with
  | nil => cases count <;> simp [readTypes]
  | cons t ts ih =>
    obtain ⟨count, rfl⟩ : ∃ n, count = n + 1 := ⟨count - 1, by simp at enough; omega⟩
    have first := type_signature (h t (by simp)) (ts.flatMap JavaType.signature ++ ')' :: rest)
    have later := ih (fun u mem => h u (by simp [mem])) (by simpa using enough)
    obtain ⟨c, cs, shape, noClose⟩ := head_type t
    have goes : (t.signature ++ (ts.flatMap JavaType.signature ++ ')' :: rest)).head? ≠ some ')' := by
      rw [shape]
      intro same
      exact noClose (by simp_all)
    rw [List.flatMap_cons, List.append_assoc, readTypes, if_neg goes, first]
    simp [later]

/-- Interfaces are read back up to the end. -/
theorem readInterfaces_flatMap {ts : List JavaType} (h : ∀ t ∈ ts, t.isReference ∧ t.Formed) {count : Nat}
    (enough : ts.length ≤ count) : readInterfaces count (ts.flatMap JavaType.signature) = .ok ts := by
  induction ts generalizing count with
  | nil => simp [readInterfaces]
  | cons t ts ih =>
    obtain ⟨count, rfl⟩ : ∃ n, count = n + 1 := ⟨count - 1, by simp at enough; omega⟩
    have first := reference_signature (h t (by simp)) (ts.flatMap JavaType.signature)
    have later := ih (fun u mem => h u (by simp [mem])) (by simpa using enough)
    obtain ⟨c, cs, shape, -⟩ := head_type t
    rw [List.flatMap_cons]
    rw [shape, List.cons_append] at first ⊢
    simp [readInterfaces, first, later]

/-- The bounds of a type parameter are read back in front of anything but a colon. -/
theorem bounds_signature {p : BoundedParameter} (h : p.Formed) {rest : List Char}
    (other : ∀ c ∈ rest.head?, c ≠ ':') :
    bounds (p.classBound.toList.flatMap JavaType.signature ++
      ((p.interfaceBounds.flatMap fun b => ':' :: b.signature) ++ rest)) = .ok (p.plain.bounds, rest) := by
  have interfaces : ∀ b ∈ p.interfaceBounds, b.isReference ∧ b.Formed := by
    intro b mem
    exact h.bounds b (List.mem_append_right _ mem)
  have long : p.interfaceBounds.length ≤
      ((p.interfaceBounds.flatMap fun b => ':' :: b.signature) ++ rest).length := by
    have filled := length_le_flatMap (f := fun b : JavaType => ':' :: b.signature) (l := p.interfaceBounds)
      fun b _ => by simp
    rw [List.length_append]
    omega
  have later := references_flatMap ':' interfaces long rest other
  cases first : p.classBound with
  | none =>
    have some : p.interfaceBounds ≠ [] := by simpa [first] using p.bounded
    obtain ⟨b, more, shape⟩ := List.exists_cons_of_ne_nil some
    have colon : ((p.interfaceBounds.flatMap fun b => ':' :: b.signature) ++ rest).head? = Option.some ':' := by
      simp [shape]
    simp only [Option.toList_none, List.flatMap_nil, List.nil_append, bounds]
    rw [if_pos (.inl colon), later]
    simp [BoundedParameter.plain, first]
  | some b =>
    obtain ⟨c, cs, shape, noMark⟩ := head_type b
    have legal : b.isReference ∧ b.Formed := h.bounds b (by simp [BoundedParameter.plain, first])
    have taken := reference_signature legal ((p.interfaceBounds.flatMap fun b => ':' :: b.signature) ++ rest)
    have goes : ¬((b.signature ++ ((p.interfaceBounds.flatMap fun b => ':' :: b.signature) ++ rest)).head? =
        some ':' ∨ (b.signature ++ ((p.interfaceBounds.flatMap fun b => ':' :: b.signature) ++ rest)).head? =
        some '>') := by
      rw [shape]
      rintro (same | same) <;> exact noMark (by simp_all)
    simp only [Option.toList_some, List.flatMap_cons, List.flatMap_nil, List.append_nil, bounds]
    rw [if_neg goes, taken]
    simp only [ok_bind, later, pure_eq_ok_except, BoundedParameter.plain, first, Option.toList_some,
      List.singleton_append]

/-- Type parameters and the bracket behind them are read back in front of anything. -/
theorem readParameters_flatMap {ps : List BoundedParameter} (h : ∀ p ∈ ps, p.Formed) {count : Nat}
    (enough : ps.length < count) (rest : List Char) :
    readParameters count (ps.flatMap BoundedParameter.signature ++ '>' :: rest) =
      .ok (ps.map BoundedParameter.plain, rest) := by
  induction ps generalizing count with
  | nil =>
    obtain ⟨count, rfl⟩ : ∃ n, count = n + 1 := ⟨count - 1, by simp at enough; omega⟩
    simp [readParameters]
  | cons p ps ih =>
    obtain ⟨count, rfl⟩ : ∃ n, count = n + 1 := ⟨count - 1, by simp at enough; omega⟩
    have formed := h p (by simp)
    have later := ih (fun q mem => h q (by simp [mem])) (by simpa using enough)
    -- what follows is the next name or the closing bracket
    have noColon : ∀ c ∈ (ps.flatMap BoundedParameter.signature ++ '>' :: rest).head?, c ≠ ':' := by
      cases ps with
      | nil => simp
      | cons q ps =>
        have next := (h q (by simp)).name
        intro c mem
        rw [List.flatMap_cons, BoundedParameter.signature, List.append_assoc, List.append_assoc,
          List.head?_append_of_ne_nil _ next.filled] at mem
        rintro rfl
        exact absurd (next.parts ':' (List.mem_of_mem_head? mem)) (by decide)
    have taken := bounds_signature formed noColon
    have named : identifier [':'] (p.name ++ ':' :: (p.classBound.toList.flatMap JavaType.signature ++
        ((p.interfaceBounds.flatMap fun b => ':' :: b.signature) ++
          (ps.flatMap BoundedParameter.signature ++ '>' :: rest)))) = .ok (p.name, _) :=
      identifier_append formed.name.filled (fun c mem => .inl (formed.name.parts c mem)) (by decide) (by simp)
    have split : (p :: ps).flatMap BoundedParameter.signature ++ '>' :: rest =
        p.name ++ ':' :: (p.classBound.toList.flatMap JavaType.signature ++
          ((p.interfaceBounds.flatMap fun b => ':' :: b.signature) ++
            (ps.flatMap BoundedParameter.signature ++ '>' :: rest))) := by
      simp [BoundedParameter.signature]
    obtain ⟨c, cs, shape⟩ := List.exists_cons_of_ne_nil formed.name.filled
    have noClose : c ≠ '>' := by
      rintro rfl
      exact absurd (formed.name.parts '>' (by simp [shape])) (by decide)
    rw [split]
    rw [shape, List.cons_append] at named ⊢
    rw [readParameters, if_neg noClose, named]
    simp only [ok_bind, expect, if_true, taken, later, pure_eq_ok_except, List.map_cons]
    rw [BoundedParameter.plain, shape]

/-- Type parameters are read back, or their absence, in front of anything that opens no angle bracket. -/
theorem parameters?_signature {parameters : Option (List BoundedParameter)}
    (h : ∀ ps ∈ parameters, ∀ p ∈ ps, p.Formed) (rest : List Char) (other : ∀ c ∈ rest.head?, c ≠ '<') :
    parameters? (signatureParameters? parameters ++ rest) =
      .ok (parameters.map (·.map BoundedParameter.plain), rest) := by
  cases parameters with
  | none =>
    cases rest with
    | nil => rfl
    | cons c rest =>
      have differ : c ≠ '<' := other c (by simp)
      simp only [signatureParameters?, List.nil_append, Option.map_none]
      rw [parameters?]
      intro cs same
      exact differ (List.cons.inj same).1
  | some ps =>
    have long : ps.length < (ps.flatMap BoundedParameter.signature ++ '>' :: rest).length + 1 := by
      have filled := length_le_flatMap (f := BoundedParameter.signature) (l := ps)
        fun p _ => by simp [BoundedParameter.signature]
      rw [List.length_append]
      omega
    have taken := readParameters_flatMap (h ps rfl) long rest
    simp only [signatureParameters?, List.cons_append, List.append_assoc, List.nil_append, parameters?, taken,
      ok_bind, pure_eq_ok_except, Option.map_some]

/-! ### Signatures read back -/

theorem ofField_signature {t : JavaType} (h : t.Formed) : ofField t.signature = .ok t := by
  have taken := type_signature h []
  rw [List.append_nil] at taken
  simp only [ofField, taken, ok_bind, finish, List.isEmpty_nil, if_true, pure_eq_ok_except]

theorem ofClass_signature {c : DeclaredClass} (h : c.Formed) : ofClass c.signature = .ok c.plain := by
  obtain ⟨d, ds, shape, first⟩ := head_signature h.superclass.1
  have other : ∀ e ∈ (c.superclass.signature ++ c.interfaces.flatMap JavaType.signature).head?, e ≠ '<' := by
    rw [shape]
    rcases first with rfl | rfl | rfl <;> simp
  have long : c.interfaces.length ≤ (c.interfaces.flatMap JavaType.signature).length := by
    refine length_le_flatMap fun t _ => ?_
    obtain ⟨e, es, filled, -⟩ := head_type t
    simp [filled]
  have parameters := parameters?_signature h.parameters _ other
  have superclass := reference_signature h.superclass (c.interfaces.flatMap JavaType.signature)
  have interfaces := readInterfaces_flatMap h.interfaces long
  simp only [ofClass, DeclaredClass.signature, parameters, superclass, interfaces, ok_bind, pure_eq_ok_except,
    DeclaredClass.plain]

theorem ofMethod_signature {m : DeclaredMethod} (h : m.Formed) : ofMethod m.signature = .ok m.plain := by
  have parameters := parameters?_signature h.parameters ('(' :: (m.arguments.flatMap JavaType.signature ++
    ')' :: (m.result.signature ++ m.throws.flatMap fun t => '^' :: t.signature))) (by simp)
  have long : m.arguments.length ≤ (m.arguments.flatMap JavaType.signature ++
      ')' :: (m.result.signature ++ m.throws.flatMap fun t => '^' :: t.signature)).length + 1 := by
    have filled : m.arguments.length ≤ (m.arguments.flatMap JavaType.signature).length := by
      refine length_le_flatMap fun t _ => ?_
      obtain ⟨e, es, shape, -⟩ := head_type t
      simp [shape]
    rw [List.length_append]
    omega
  have arguments := readTypes_flatMap h.arguments long (m.result.signature ++ m.throws.flatMap fun t => '^' :: t.signature)
  have result := type_signature h.result (m.throws.flatMap fun t => '^' :: t.signature)
  have count : m.throws.length ≤ (m.throws.flatMap fun t => '^' :: t.signature).length :=
    length_le_flatMap fun t _ => by simp
  have throws := references_flatMap '^' h.throws count [] (by simp)
  rw [List.append_nil] at throws
  simp only [ofMethod, DeclaredMethod.signature, parameters, expect, if_true, arguments, result, throws, ok_bind,
    finish, List.isEmpty_nil, pure_eq_ok_except, DeclaredMethod.plain]

/-! ### Rendered signatures as tokens -/

/-- A text that a line gives back as one token, whatever comes behind the next space. -/
def TakenWhole (t : List Char) : Prop := ∀ rest, AtSpace rest → nextToken (t ++ rest) = .ok (some t, rest)

theorem takenWhole_of_renders {t e : List Char} (filled : t ≠ []) (h : Renders [' '] t e) : TakenWhole t :=
  fun _ ends => IsToken.taken ⟨filled, h.clear⟩ ends

theorem takenWhole_render {t : JavaType} (h : t.Formed) : TakenWhole t.render :=
  takenWhole_of_renders (render_ne_nil h.legal) (h.legal.renders.of_subset (by decide))

theorem takenWhole_parameters {parameters : Option (List BoundedParameter)}
    (h : ∀ ps ∈ parameters, ∀ p ∈ ps, p.Formed) :
    ∀ ps ∈ parameters.map (·.map BoundedParameter.plain), TakenWhole (renderParameters ps) := by
  intro ps mem
  obtain ⟨bounded, inList, rfl⟩ := Option.map_eq_some_iff.1 mem
  have named : ∀ p ∈ bounded.map BoundedParameter.plain, p.Named := by
    intro p mem
    obtain ⟨q, inside, rfl⟩ := List.mem_map.1 mem
    exact (h bounded inList q inside).named
  exact takenWhole_of_renders (by simp [renderParameters]) (renders_parameters named)

/-- The arguments of a method are one token in parentheses, and are cut apart at their commas again. -/
theorem takenWhole_types {ts : List JavaType} (h : ∀ t ∈ ts, t.Formed) :
    TakenWhole ('(' :: renderTypes ts ++ [')']) ∧
      items brackets (renderTypes ts) = .ok (ts.map JavaType.render) := by
  have legal : ∀ t ∈ ts, t.Legal := fun t mem => (h t mem).legal
  constructor
  · intro rest ends
    have clear : Clear brackets [' '] ('(' :: renderTypes ts ++ [')']) :=
      (renders_types legal).clear.bracketed (List.Subset.refl _) (by decide) (by decide)
    exact IsToken.taken ⟨by simp, clear⟩ ends
  · refine items_join fun t mem => ?_
    obtain ⟨u, inList, rfl⟩ := List.mem_map.1 mem
    exact (legal u inList).isItem

/-- A field, a class and a method have their types back from their signatures, whatever these types are. What
is written of them in source is one token of a line for each type, for the type parameters and for the
arguments in parentheses, and a list of arguments is cut into them again. -/
theorem of_signature {t : JavaType} (ht : t.Formed) {c : DeclaredClass} (hc : c.Formed) {m : DeclaredMethod}
    (hm : m.Formed) :
    (ofField t.signature = .ok t ∧ TakenWhole t.render) ∧
    (ofClass c.signature = .ok c.plain ∧ ∀ ps ∈ c.plain.parameters, TakenWhole (renderParameters ps)) ∧
    (ofMethod m.signature = .ok m.plain ∧ (∀ ps ∈ m.plain.parameters, TakenWhole (renderParameters ps)) ∧
      TakenWhole ('(' :: renderTypes m.arguments ++ [')']) ∧
      items brackets (renderTypes m.arguments) = .ok (m.arguments.map JavaType.render)) :=
  ⟨⟨ofField_signature ht, takenWhole_render ht⟩,
    ⟨ofClass_signature hc, takenWhole_parameters hc.parameters⟩,
    ofMethod_signature hm, takenWhole_parameters hm.parameters, takenWhole_types hm.arguments⟩

/-- An array of entries of a map, with wildcards of each kind. -/
def mapEntries : JavaType :=
  .array (.classType "java/util/Map".toList
    (some [.extending (.variable ['K']), .any, .superOf (.array (.primitive .int))])
    [.mk "Entry".toList (some [.exactly (.variable ['V'])])])

/-- A class with a parameter that has bounds of both kinds and one that has an interface only. -/
def sortedMap : DeclaredClass :=
  ⟨some [⟨['K'], some (.classType "java/lang/Object".toList none []), [.classType "java/lang/Comparable".toList
      (some [.superOf (.variable ['K'])]) []], .inl rfl⟩,
    ⟨['V'], none, [.classType "java/lang/Runnable".toList none []], .inr (by simp)⟩],
    .classType "java/util/AbstractMap".toList (some [.exactly (.variable ['K']), .exactly (.variable ['V'])]) [],
    [.classType "java/lang/Cloneable".toList none []]⟩

/-- A method that throws what it is told to. -/
def rethrow : DeclaredMethod :=
  ⟨some [⟨['X'], some (.classType "java/lang/Exception".toList none []), [], .inl rfl⟩],
    [.variable ['X'], mapEntries, .primitive .int], .primitive .void,
    [.variable ['X'], .classType "java/io/IOException".toList none []]⟩

theorem of_signature_sortedMap :
    (mapEntries.signature = "[Ljava/util/Map<+TK;*-[I>.Entry<TV;>;".toList ∧
      mapEntries.render = "java.util.Map<? extends K,?,? super int[]>$Entry<V>[]".toList ∧
      ofField mapEntries.signature = .ok mapEntries ∧ TakenWhole mapEntries.render) ∧
    (sortedMap.signature = ("<K:Ljava/lang/Object;:Ljava/lang/Comparable<-TK;>;V::Ljava/lang/Runnable;>" ++
        "Ljava/util/AbstractMap<TK;TV;>;Ljava/lang/Cloneable;").toList ∧
      ofClass sortedMap.signature = .ok sortedMap.plain) ∧
    rethrow.signature = ("<X:Ljava/lang/Exception;>(TX;[Ljava/util/Map<+TK;*-[I>.Entry<TV;>;I)" ++
        "V^TX;^Ljava/io/IOException;").toList ∧
      ofMethod rethrow.signature = .ok rethrow.plain := by
  obtain ⟨field, ⟨class', -⟩, method, -⟩ := of_signature (t := mapEntries) (by decide) (c := sortedMap) (by decide)
    (m := rethrow) (by decide)
  exact ⟨⟨by decide +kernel, by decide +kernel, field⟩, ⟨by decide +kernel, class'⟩, by decide +kernel, method⟩

end Descriptor

end ApiSurface
