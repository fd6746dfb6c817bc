import ApiSurface.Proofs.InPlace.Annotated
import ApiSurface.Proofs.InPlace.Legacy

/-!
No text gets the parsers of lines stuck. The parsers of annotations and of values call each other; `Asks`
says which call makes which other one, and from where. Main statements: along every chain of calls the
place where a call begins never goes back, and goes on with every value that an annotation or an array asks
for (`further_of_asks`, `further_of_chain`); every call in a chain begins and ends where the text can be
cut, and ends further on than it began (`Call.sound_of_chain`); and every parser in place ends, with what
the reader gives (`line_parsers_never_stuck`).
-/

namespace ApiSurface.InPlace

open ApiSurface.Text ApiSurface.Annotated ApiSurface.Legacy
open Relation (ReflTransGen TransGen)

variable {s cs rest : List Char} {i j : Nat}

/-! ### Calls -/

/-- A call of one of the parsers that call each other, from this place on. -/
inductive Call where
  | use (place : Nat)
  | elements (place : Nat)
  | value (place : Nat)
  | values (place : Nat)

namespace Call

def place : Call → Nat
  | use i | elements i | value i | values i => i

/-- Which calls may make which other ones without getting on: the higher ones the lower ones. -/
def rank : Call → Nat
  | use _ | elements _ => 0
  | value _ => 1
  | values _ => 2

/-- The call ends, with a fault or at a place further on. -/
def Ends (s : List Char) : Call → Prop
  | use i => InPlace.Ends s i (parseUse s i)
  | elements i => InPlace.Ends s i (parseElements s i)
  | value i => InPlace.Ends s i (parseValue s i)
  | values i => InPlace.Ends s i (parseValues s i)

end Call

/-- The first call makes the second one. -/
inductive Asks (s : List Char) : Call → Call → Prop
  | elements {i j k : Nat} {head : UInt32 × Option TypePlace} {name' : List Char} :
      target s i = done (.ok (head, j)) → name s j = done (.ok (name', k)) → Asks s (.use i) (.elements k)
  | value {i j k : Nat} {type name : List Char} :
      elementType s (skipSpaces s i) = done (.ok (type, j)) → elementName type s j = done (.ok (name, k)) →
      Asks s (.elements i) (.value k)
  | moreElements {i k stop : Nat} {value : ElementValue} :
      Asks s (.elements i) (.value k) → parseValue s k = done (.ok (value, stop)) →
      byteAt? s (skipSpaces s stop) = some ',' → Asks s (.elements i) (.elements (skipSpaces s stop + 1))
  | values {i : Nat} :
      byteAt? s (skipSpaces s i) = some '[' → Asks s (.value i) (.values (skipSpaces s (skipSpaces s i + 1)))
  | use {i : Nat} : Asks s (.value i) (.use (skipSpaces s i))
  | item {i : Nat} : Asks s (.values i) (.value i)
  | moreValues {i stop : Nat} {value : ElementValue} :
      parseValue s i = done (.ok (value, stop)) → byteAt? s (skipSpaces s stop) = some ',' →
      Asks s (.values i) (.values (skipSpaces s stop + 1))

/-- A call made from what is left of a text begins where less is left, or else where no more is left, and is one
of a lower rank. -/
def Further (a b : Call) (cs rest : List Char) : Prop := Behind cs rest ∨ rest <:+ cs ∧ b.rank < a.rank

theorem Further.trans {a b c : Call} {ds : List Char} (first : Further a b cs rest) (second : Further b c rest ds) :
    Further a c cs ds := by
  rcases first with behind | ⟨less, lower⟩
  · rcases second with behind' | ⟨less', -⟩
    · exact .inl (behind.of_suffix behind'.suffix)
    · exact .inl (behind.of_suffix less')
  · rcases second with behind' | ⟨less', lower'⟩
    · exact .inl (behind'.mono less)
    · exact .inr ⟨less'.trans less, lower'.trans lower⟩

/-- Behind spaces and a mark. -/
theorem exists_behind_mark {mark : Char} (ascii : IsAscii mark) (h : restAt? s i = some cs)
    (byte : byteAt? s (skipSpaces s i) = some mark) :
    ∃ rest, restAt? s (skipSpaces s i + 1) = some rest ∧ Behind cs rest := by
  have start := restAt?_skipSpaces h
  obtain ⟨rest, front⟩ : ∃ rest, dropSpaces cs = mark :: rest := by
    by_contra other
    exact byteAt?_ne ascii (fun rest same => other ⟨rest, same⟩) start byte
  rw [front] at start
  refine ⟨rest, restAt?_cons_ascii ascii start, (Behind.cons mark rest).mono ?_⟩
  rw [← front]
  exact dropSpaces_suffix cs

/-- A call that is made begins where less is left, or has a lower rank. -/
theorem further_of_asks {a b : Call} (asks : Asks s a b) (start : restAt? s a.place = some cs) :
    ∃ rest, restAt? s b.place = some rest ∧ Further a b cs rest := by
  induction asks generalizing cs with
  | elements head name =>
    obtain ⟨cs₁, place₁, first⟩ := (follows_target start).reached head
    obtain ⟨cs₂, place₂, second⟩ := (follows_name place₁).reached name
    exact ⟨cs₂, place₂, .inl (first.of_suffix second.suffix)⟩
  | value type name =>
    obtain ⟨cs₁, place₁, first⟩ := (follows_elementType (restAt?_skipSpaces start)).reached type
    obtain ⟨cs₂, place₂, second⟩ := (follows_elementName _ place₁).reached name
    exact ⟨cs₂, place₂, .inl (second.mono (first.trans (dropSpaces_suffix cs)))⟩
  | moreElements _ value comma ih =>
    obtain ⟨cs₁, place₁, first⟩ := ih start
    obtain ⟨cs₂, place₂, second⟩ := (follows_parseValue place₁).reached value
    obtain ⟨cs₃, place₃, third⟩ := exists_behind_mark (by decide) place₂ comma
    have behind : Behind cs cs₁ := first.resolve_right fun lower => Nat.not_lt_zero _ lower.2
    exact ⟨cs₃, place₃, .inl (behind.of_suffix (third.suffix.trans second.suffix))⟩
  | values bracket =>
    obtain ⟨cs₁, place₁, first⟩ := exists_behind_mark (by decide) start bracket
    exact ⟨_, restAt?_skipSpaces place₁, .inl (first.of_suffix (dropSpaces_suffix cs₁))⟩
  | use => exact ⟨_, restAt?_skipSpaces start, .inr ⟨dropSpaces_suffix cs, Nat.zero_lt_one⟩⟩
  | item => exact ⟨cs, start, .inr ⟨List.suffix_refl cs, Nat.lt_succ_self 1⟩⟩
  | moreValues value comma =>
    obtain ⟨cs₁, place₁, first⟩ := (follows_parseValue start).reached value
    obtain ⟨cs₂, place₂, second⟩ := exists_behind_mark (by decide) place₁ comma
    exact ⟨cs₂, place₂, .inl (first.of_suffix second.suffix)⟩

/-- So does one at the end of a chain of calls. -/
theorem further_of_chain {a b : Call} (chain : TransGen (Asks s) a b) (start : restAt? s a.place = some cs) :
    ∃ rest, restAt? s b.place = some rest ∧ Further a b cs rest := by
  induction chain with
  | single asks => exact further_of_asks asks start
  | tail _ asks ih =>
    obtain ⟨cs₁, place₁, first⟩ := ih
    obtain ⟨cs₂, place₂, second⟩ := further_of_asks asks place₁
    exact ⟨cs₂, place₂, first.trans second⟩

namespace Call

/-- What holds of a call, and of all that it leads to. -/
structure Sound (s : List Char) (a : Call) : Prop where
  /-- It begins where the text can be cut. -/
  begins : (restAt? s a.place).isSome
  ends : a.Ends s
  /-- No call that it leads to begins earlier. -/
  le : ∀ b, TransGen (Asks s) a b → a.place ≤ b.place
  /-- A value that an annotation or an array asks for begins further on. -/
  lt : (∀ i, a ≠ values i) → ∀ j, TransGen (Asks s) a (value j) → a.place < j

variable {a : Call}

theorem ends_of_restAt? (start : restAt? s a.place = some cs) : a.Ends s := by
  cases a with
  | use i => exact (follows_parseUse start).ends start
  | elements i => exact (follows_parseElements start).ends start
  | value i => exact (follows_parseValue start).ends start
  | values i => exact (follows_parseValues start).ends start

theorem rank_le_one (h : ∀ i, a ≠ values i) : a.rank ≤ 1 := by
  cases a with
  | values i => exact absurd rfl (h i)
  | use i | elements i => exact Nat.zero_le 1
  | value i => exact Nat.le_refl 1

theorem sound_of_restAt? (start : restAt? s a.place = some cs) : a.Sound s where
  begins := by simp [start]
  ends := ends_of_restAt? start
  le b chain := by
    obtain ⟨rest, place, behind | ⟨less, -⟩⟩ := further_of_chain chain start
    · exact Nat.le_of_lt (behind.ahead start place).1
    · exact le_of_restAt? start place less
  lt other j chain := by
    -- a value has rank 1, so only the values of an array can ask for one without getting on
    obtain ⟨rest, place, further⟩ := further_of_chain chain start
    have behind : Behind cs rest := further.resolve_right fun lower => Nat.not_lt.2 (rank_le_one other) lower.2
    exact (behind.ahead start place).1

/-- Every call that the annotation at the front of a text leads to is sound. -/
theorem sound_of_chain (chain : ReflTransGen (Asks s) (use 0) a) : a.Sound s := by
  rcases Relation.reflTransGen_iff_eq_or_transGen.1 chain with rfl | chain
  · exact sound_of_restAt? (restAt?_zero s)
  · obtain ⟨rest, place, -⟩ := further_of_chain chain (restAt?_zero s)
    exact sound_of_restAt? place

end Call

/-! ### All parsers -/

/-- No parser of lines is stuck, whatever the text: it cuts and replaces only between places in the text where
a character begins or the text ends, none of the conditions that it takes for granted fails, and it ends, with
what the reader gives. So does every call in the chains of calls that the text leads to. -/
theorem line_parsers_never_stuck (text : List Char) (kind : MemberKind) (rule : LegacyRule) (className : String) :
    parseMember kind className text = done (Line.parseMember kind className text) ∧
    parseClassHeader text = done (Line.parseClassHeader text) ∧
    parseLine text = done (ofLine text) ∧
    parsePrefix text = done ((takeUse text).map fun found => (found.1, byteLength text - byteLength found.2)) ∧
    splitTopLevel brackets text = done (items brackets text) ∧
    splitTopLevel legacyBrackets text = done (items legacyBrackets text) ∧
    decode rule className text = done (rule.decode className text) ∧
    encode rule className text = done (rule.encode className text) ∧
    ∀ call, ReflTransGen (Asks text) (.use 0) call → call.Sound text :=
  ⟨parseMember_eq kind className text, parseClassHeader_eq text, parseLine_eq text, parsePrefix_eq text,
    splitTopLevel_eq (List.Subset.refl brackets) text, splitTopLevel_eq legacyBrackets_subset text,
    decode_eq rule className text, encode_eq rule className text, fun _ chain => Call.sound_of_chain chain⟩

end ApiSurface.InPlace
