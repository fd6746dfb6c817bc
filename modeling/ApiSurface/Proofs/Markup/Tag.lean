import ApiSurface.Markup.Events
import ApiSurface.Proofs.Result
import ApiSurface.Proofs.Text.Cut

/-!
Tags written and read. Main statements: the attributes of a tag are read back (`attributes_text`), a tag is
cut off behind its last bracket whatever its values are (`cutTag_attributesText`, `cutTag_end`), and in front of
anything else a tag is one event (`eventsFrom_startTag`, `eventsFrom_emptyTag`, `eventsFrom_endTag`).
-/

namespace ApiSurface.Markup

open ApiSurface.Text

/-! ### Attributes -/

/-- The attributes of a tag as they are written. -/
def attributesText (as : List (String × String)) : List Char :=
  as.flatMap fun (key, value) => ' ' :: key.toList ++ '=' :: '"' :: escapeValue value.toList ++ ['"']

/-- The attributes as a reader gives them. -/
def Attribute.ofPair (a : String × String) : Attribute := ⟨a.1.toList, a.2.toList⟩

/-- A word that a tag may hold as a name: nothing in it ends the name. -/
def PlainName (name : List Char) : Prop :=
  name ≠ [] ∧ ∀ c ∈ name, isSpace c = false ∧ c ∉ ['<', '>', '"', '\'', '/', '!', '?', '=']

theorem notMem_escapeValue {c : Char} (special : c = '<' ∨ c = '>' ∨ c = '"' ∨ c = '\'') (cs : List Char) :
    c ∉ escapeValue cs := by
  intro mem
  obtain ⟨d, -, inside⟩ := List.mem_flatMap.1 mem
  unfold escapeValueChar at inside
  split_ifs at inside
  -- an entity has none of the four characters, and any other character is not one of them
  all_goals
    rcases special with rfl | rfl | rfl | rfl <;>
      first
        | exact absurd inside (by decide)
        | obtain rfl := List.mem_singleton.1 inside
          contradiction

/-- An attribute is taken off in front of the others. -/
theorem takeAttribute_text {key : String} (value : String) (plain : PlainName key.toList) {seen : List (List Char)}
    (fresh : key.toList ∉ seen) (rest : List Char) :
    ∃ c cs, key.toList ++ '=' :: '"' :: (escapeValue value.toList ++ '"' :: rest) = c :: cs ∧
      isSpace c = false ∧ takeAttribute seen c cs = .ok (.ofPair (key, value), rest) := by
  obtain ⟨filled, chars⟩ := plain
  cases name : key.toList with
  | nil => exact absurd name filled
  | cons c more =>
    rw [name] at chars fresh
    have cut : cutBefore (fun d => d == '=' || isSpace d)
        (more ++ '=' :: '"' :: (escapeValue value.toList ++ '"' :: rest)) =
          (more, '=' :: '"' :: (escapeValue value.toList ++ '"' :: rest)) := by
      refine cutBefore_append (fun d mem => ?_) (by simp)
      have plain := chars d (by simp [mem])
      have differ : d ≠ '=' := fun same => plain.2 (by simp [same])
      simp [differ, plain.1]
    have quoted : cutAt? ['"'] (escapeValue value.toList ++ '"' :: rest) =
        some (escapeValue value.toList, rest) :=
      cutAt?_singleton (notMem_escapeValue (by simp) _)
    have equals : isSpace '=' = false := by decide
    have quote : isSpace '"' = false := by decide
    refine ⟨c, _, rfl, (chars c (by simp)).1, ?_⟩
    simp only [List.append_eq, takeAttribute, cut, List.dropWhile_cons, equals, quote, Bool.false_eq_true, if_false,
      fresh, true_or, if_true, quoted, unescapeValue_escapeValue, map_ok, Attribute.ofPair, name]

theorem attributesFrom_text {as : List (String × String)} (plain : ∀ a ∈ as, PlainName a.1.toList)
    (seen : List (List Char)) (fresh : ∀ a ∈ as, a.1.toList ∉ seen)
    (distinct : (as.map Prod.fst).Nodup) {limit : Nat} (enough : as.length ≤ limit) :
    attributesFrom limit seen (attributesText as) = .ok (as.map .ofPair) := by
  induction as generalizing seen limit with
  | nil => cases limit <;> rfl
  | cons a as ih =>
    obtain ⟨key, value⟩ := a
    cases limit with
    | zero => simp at enough
    | succ limit =>
      have whole : attributesText ((key, value) :: as) =
          ' ' :: (key.toList ++ '=' :: '"' :: (escapeValue value.toList ++ '"' :: attributesText as)) := by
        simp [attributesText]
      obtain ⟨c, cs, start, noSpace, taken⟩ := takeAttribute_text value (plain _ (by simp))
        (fresh (key, value) (by simp)) (attributesText as)
      have space : isSpace ' ' = true := by decide
      have later := ih (fun b mem => plain b (by simp [mem])) (key.toList :: seen)
        (fun b mem => by
          have apart : key ≠ b.1 := by
            rintro rfl
            simp only [List.map_cons, List.nodup_cons] at distinct
            exact distinct.1 (List.mem_map_of_mem mem)
          simp only [List.mem_cons, not_or]
          exact ⟨fun same => apart (String.toList_inj.1 same.symm), fresh b (by simp [mem])⟩)
        (List.nodup_cons.1 distinct).2 (by simpa using enough)
      rw [whole, attributesFrom, start]
      simp only [List.dropWhile_cons, space, if_true, noSpace, Bool.false_eq_true, if_false, taken,
        Attribute.ofPair] at later ⊢
      rw [later]
      rfl

theorem length_le_attributesText (as : List (String × String)) : as.length ≤ (attributesText as).length := by
  induction as with
  | nil => simp
  | cons a as ih =>
    have split : attributesText (a :: as) = attributesText [a] ++ attributesText as := by
      simp [attributesText]
    have first : 1 ≤ (attributesText [a]).length := by simp [attributesText]
    rw [split, List.length_append, List.length_cons]
    omega

/-- The attributes of a tag are read back. -/
theorem attributes_text {as : List (String × String)} (plain : ∀ a ∈ as, PlainName a.1.toList)
    (distinct : (as.map Prod.fst).Nodup) :
    attributes (attributesText as) = .ok (as.map .ofPair) :=
  attributesFrom_text plain _ (by simp) distinct (Nat.le_succ_of_le (length_le_attributesText as))

/-! ### Ends of tags -/

theorem cutTag_cons_of_plain {c : Char} (noEnd : c ≠ '>') (noQuote : ¬(c = '"' ∨ c = '\'')) (cs : List Char) :
    cutTag none (c :: cs) = (cutTag none cs).map fun found => (c :: found.1, found.2) := by
  simp [cutTag, noEnd, noQuote]

theorem cutTag_plain_append {a : List Char} (plain : ∀ c ∈ a, c ≠ '>' ∧ ¬(c = '"' ∨ c = '\''))
    (rest : List Char) :
    cutTag none (a ++ rest) = (cutTag none rest).map fun found => (a ++ found.1, found.2) := by
  induction a with
  | nil => simp
  | cons c a ih =>
    have ⟨noEnd, noQuote⟩ := plain c (by simp)
    rw [List.cons_append, cutTag_cons_of_plain noEnd noQuote, ih fun d mem => plain d (by simp [mem])]
    cases cutTag none rest <;> rfl

/-- Inside quotes no bracket ends the tag. -/
theorem cutTag_quoted_append {q : Char} {a : List Char} (free : q ∉ a) (rest : List Char) :
    cutTag (some q) (a ++ q :: rest) =
      (cutTag none rest).map fun found => (a ++ q :: found.1, found.2) := by
  induction a with
  | nil => simp [cutTag]
  | cons c a ih =>
    have ⟨differ, behind⟩ := List.ne_and_not_mem_of_not_mem_cons free
    rw [List.cons_append, cutTag, if_neg (Ne.symm differ), ih behind]
    cases cutTag none rest <;> rfl

theorem PlainName.cutTag_append {name : List Char} (plain : PlainName name) (rest : List Char) :
    cutTag none (name ++ rest) = (cutTag none rest).map fun found => (name ++ found.1, found.2) := by
  refine cutTag_plain_append (fun c mem => ?_) rest
  have chars := (plain.2 c mem).2
  simp only [List.mem_cons, List.not_mem_nil, or_false, not_or] at chars
  exact ⟨chars.2.1, fun h => h.elim chars.2.2.1 chars.2.2.2.1⟩

theorem cutTag_attributesText {as : List (String × String)} (plain : ∀ a ∈ as, PlainName a.1.toList)
    (rest : List Char) :
    cutTag none (attributesText as ++ rest) =
      (cutTag none rest).map fun found => (attributesText as ++ found.1, found.2) := by
  induction as with
  | nil => simp [attributesText]
  | cons a as ih =>
    obtain ⟨key, value⟩ := a
    have whole (tail : List Char) : attributesText ((key, value) :: as) ++ tail =
        ' ' :: (key.toList ++ ('=' :: '"' :: (escapeValue value.toList ++ '"' :: (attributesText as ++ tail)))) := by
      simp [attributesText]
    have later := ih fun b mem => plain b (by simp [mem])
    have quote : cutTag none ('"' :: (escapeValue value.toList ++ '"' :: (attributesText as ++ rest))) =
        (cutTag (some '"') (escapeValue value.toList ++ '"' :: (attributesText as ++ rest))).map
          fun found => ('"' :: found.1, found.2) := by
      simp [cutTag]
    rw [whole, cutTag_cons_of_plain (by decide) (by decide), (plain (key, value) (by simp)).cutTag_append,
      cutTag_cons_of_plain (by decide) (by decide), quote,
      cutTag_quoted_append (notMem_escapeValue (by simp) _), later]
    cases cutTag none rest with
    | none => rfl
    | some found => simp [whole]

theorem cutTag_end (rest : List Char) : cutTag none ('>' :: rest) = some ([], rest) := by simp [cutTag]

/-! ### Tags as events -/

/-- The name and the attributes are taken apart again. -/
theorem cutBefore_name {name : List Char} (plain : PlainName name) {rest : List Char}
    (next : ∀ c ∈ rest.head?, isSpace c = true) : cutBefore isSpace (name ++ rest) = (name, rest) := by
  refine cutBefore_append (fun c mem => ?_) next
  simpa using (plain.2 c mem).1

theorem head?_attributesText (as : List (String × String)) :
    ∀ c ∈ (attributesText as).head?, isSpace c = true := by
  cases as with
  | nil => simp [attributesText]
  | cons a as =>
    intro c mem
    obtain rfl : ' ' = c := by simpa [attributesText] using mem
    decide

/-- Names that a tag may hold: its own and those of its attributes, each once. -/
structure PlainTag (name : String) (as : List (String × String)) : Prop where
  name : PlainName name.toList
  keys : ∀ a ∈ as, PlainName a.1.toList
  distinct : (as.map Prod.fst).Nodup

theorem beforeTail?_slash_of_ne {t : List Char} (h : ∀ c ∈ t.getLast?, c ≠ '/') :
    beforeTail? ['/'] t = none := by
  cases found : beforeTail? ['/'] t with
  | none => rfl
  | some front =>
    obtain rfl := beforeTail?_eq_some_iff.1 found
    exact absurd rfl (h '/' (by simp))

theorem opening_start {name : String} {as : List (String × String)} (plain : PlainTag name as) :
    opening (name.toList ++ attributesText as) = .ok (name.toList, as.map .ofPair, false) := by
  have last : ∀ c ∈ (name.toList ++ attributesText as).getLast?, c ≠ '/' := by
    intro c mem
    rcases List.eq_nil_or_concat' as with rfl | ⟨front, a, rfl⟩
    · have inside : c ∈ name.toList := by
        have := List.mem_of_getLast? (by simpa [attributesText] using mem)
        exact this
      rintro rfl
      exact (plain.name.2 '/' inside).2 (by simp)
    · have split : name.toList ++ attributesText (front ++ [a]) =
          (name.toList ++ attributesText front ++
            (' ' :: a.1.toList ++ '=' :: '"' :: escapeValue a.2.toList)) ++ ['"'] := by
        simp [attributesText]
      rw [split, List.getLast?_concat] at mem
      obtain rfl : '"' = c := by simpa using mem
      decide
  simp only [opening, beforeTail?_slash_of_ne last, cutBefore_name plain.name (head?_attributesText as),
    attributes_text plain.keys plain.distinct, map_ok]

theorem opening_empty {name : String} {as : List (String × String)} (plain : PlainTag name as) :
    opening (name.toList ++ attributesText as ++ ['/']) = .ok (name.toList, as.map .ofPair, true) := by
  simp only [opening, beforeTail?_append, cutBefore_name plain.name (head?_attributesText as),
    attributes_text plain.keys plain.distinct, map_ok]

theorem startTag_eq (name : String) (as : List (String × String)) :
    startTag name as = '<' :: (name.toList ++ attributesText as ++ ['>']) := by
  simp [startTag, tag, attributesText]

theorem emptyTag_eq (name : String) (as : List (String × String)) :
    emptyTag name as = '<' :: (name.toList ++ attributesText as ++ ['/'] ++ ['>']) := by
  simp [emptyTag, tag, attributesText]

/-- The first character of a name decides that a tag opens an element. -/
theorem eventsFrom_opening {gap name inside rest : List Char} (noTag : '<' ∉ gap) (plain : PlainName name)
    {limit : Nat} {parents : List (List Char)} (cut : cutTag none (name ++ inside ++ '>' :: rest) =
      some (name ++ inside, rest)) :
    eventsFrom (limit + 1) parents (gap ++ '<' :: (name ++ inside ++ '>' :: rest)) =
      (match opening (name ++ inside) with
        | .error fault => .failed fault
        | .ok (name, attributes, empty) =>
          .next (.opens name attributes empty)
            (eventsFrom limit (if empty then parents else name :: parents) rest)) := by
  obtain ⟨filled, chars⟩ := plain
  cases name with
  | nil => exact absurd rfl filled
  | cons c more =>
    have first := (chars c (by simp)).2
    simp only [List.mem_cons, List.not_mem_nil, or_false, not_or] at first
    obtain ⟨-, -, -, -, noSlash, noBang, noQuestion, -⟩ := first
    have found := @cutAt?_singleton _ _ (c :: more ++ inside ++ '>' :: rest) noTag
    rw [eventsFrom, found]
    simp only [List.cons_append] at cut ⊢
    simp only [noBang, noQuestion, noSlash, if_false, cut]
    all_goals rfl

/-- A tag that opens an element, in front of anything else. -/
theorem eventsFrom_startTag {name : String} {as : List (String × String)} (plain : PlainTag name as)
    {gap : List Char} (noTag : '<' ∉ gap) (limit : Nat) (parents : List (List Char)) (rest : List Char) :
    eventsFrom (limit + 1) parents (gap ++ (startTag name as ++ rest)) =
      .next (.opens name.toList (as.map .ofPair) false) (eventsFrom limit (name.toList :: parents) rest) := by
  have cut : cutTag none (name.toList ++ attributesText as ++ '>' :: rest) =
      some (name.toList ++ attributesText as, rest) := by
    rw [List.append_assoc, plain.name.cutTag_append, cutTag_attributesText plain.keys, cutTag_end]
    simp
  have whole : startTag name as ++ rest = '<' :: (name.toList ++ attributesText as ++ '>' :: rest) := by
    simp [startTag_eq]
  rw [whole, eventsFrom_opening noTag plain.name cut, opening_start plain]
  rfl

/-- A tag that is an element by itself, in front of anything else. -/
theorem eventsFrom_emptyTag {name : String} {as : List (String × String)} (plain : PlainTag name as)
    {gap : List Char} (noTag : '<' ∉ gap) (limit : Nat) (parents : List (List Char)) (rest : List Char) :
    eventsFrom (limit + 1) parents (gap ++ (emptyTag name as ++ rest)) =
      .next (.opens name.toList (as.map .ofPair) true) (eventsFrom limit parents rest) := by
  have cut : cutTag none (name.toList ++ (attributesText as ++ ['/']) ++ '>' :: rest) =
      some (name.toList ++ (attributesText as ++ ['/']), rest) := by
    rw [List.append_assoc, plain.name.cutTag_append, List.append_assoc,
      cutTag_attributesText plain.keys, List.singleton_append,
      cutTag_cons_of_plain (by decide) (by decide), cutTag_end]
    simp
  have whole : emptyTag name as ++ rest =
      '<' :: (name.toList ++ (attributesText as ++ ['/']) ++ '>' :: rest) := by
    simp [emptyTag_eq]
  have opens := opening_empty plain
  rw [List.append_assoc] at opens
  rw [whole, eventsFrom_opening noTag plain.name cut, opens]
  rfl

/-- The tag that closes the innermost element, in front of anything else. -/
theorem eventsFrom_endTag {name : String} (plain : PlainName name.toList) {gap : List Char}
    (noTag : '<' ∉ gap) (limit : Nat) (parents : List (List Char)) (rest : List Char) :
    eventsFrom (limit + 1) (name.toList :: parents) (gap ++ (endTag name ++ rest)) =
      .next (.closes name.toList) (eventsFrom limit parents rest) := by
  have whole : endTag name ++ rest = '<' :: '/' :: (name.toList ++ '>' :: rest) := by
    simp [endTag]
  have found := @cutAt?_singleton _ _ ('/' :: (name.toList ++ '>' :: rest)) noTag
  have cut : cutTag none ('/' :: (name.toList ++ '>' :: rest)) = some ('/' :: name.toList, rest) := by
    rw [cutTag_cons_of_plain (by decide) (by decide), plain.cutTag_append, cutTag_end]
    simp
  have named : closingName name.toList = name.toList := by
    have some : name.toList.all isSpace = false := by
      cases chars : name.toList with
      | nil => exact absurd chars plain.1
      | cons c more => simp [(plain.2 c (by simp [chars])).1]
    rcases List.eq_nil_or_concat' name.toList with none | ⟨front, c, last⟩
    · exact absurd none plain.1
    · have ends := (plain.2 c (by simp [last])).1
      rw [closingName, some, last]
      simp [ends]
  rw [whole, eventsFrom, found]
  simp only [show ('/' : Char) ≠ '!' by decide, show ('/' : Char) ≠ '?' by decide, if_false, cut, if_true,
    List.drop_one, List.tail_cons, named]

end ApiSurface.Markup
