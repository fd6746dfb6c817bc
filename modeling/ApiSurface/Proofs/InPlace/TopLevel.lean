import ApiSurface.Proofs.InPlace.Scan
import ApiSurface.Proofs.Text.Balanced
import ApiSurface.Proofs.Text.Items

/-!
Where the scanner in place stops, whatever it is given: it may begin at any byte, also inside of a character or
behind the end, and look for any bytes. Over the bytes of the text it does what the readers do over characters.
Main statement: the scan ends at the first stop outside of literals and brackets, the search for a closing bracket
behind the balanced text that follows the opening one, both fail just where something is not balanced before, and
a list of balanced parts is cut into them (`scanner_meets_definition`).
-/

namespace ApiSurface.InPlace

open ApiSurface.Text

/-- What the scanner sees from a place on: the bytes there, each as the character of its number. -/
def bytesFrom (s : List Char) (i : Nat) : List Char := ((bytes s).drop i).map Char.ofUInt8

/-- The place from which on this is left. -/
def placeOf (s rest : List Char) : Nat := byteLength s - rest.length

variable {s opens stops stack : List Char} {c quote : Char} {i : Nat}

theorem bytesFrom_of_byteAt?_eq_none (h : byteAt? s i = none) : bytesFrom s i = [] := by
  have past : (bytes s).length ≤ i := length_bytes s ▸ byteAt?_eq_none_iff.1 h
  rw [bytesFrom, List.drop_eq_nil_of_le past, List.map_nil]

theorem bytesFrom_of_byteAt?_eq_some (h : byteAt? s i = some c) : bytesFrom s i = c :: bytesFrom s (i + 1) := by
  obtain ⟨b, here, rfl⟩ := Option.map_eq_some_iff.1 h
  obtain ⟨inside, rfl⟩ := List.getElem?_eq_some_iff.1 here
  rw [bytesFrom, List.drop_eq_getElem_cons inside, List.map_cons, bytesFrom]

theorem placeOf_bytesFrom (fits : i ≤ byteLength s) : placeOf s (bytesFrom s i) = i := by
  rw [placeOf, bytesFrom, List.length_map, List.length_drop, length_bytes, Nat.sub_sub_self fits]

/-! ### Single steps -/

/-- The end of a literal, over the bytes. -/
theorem quoteEnd?_bytesFrom (s : List Char) (quote : Char) (i : Nat) :
    match throughQuote? quote (bytesFrom s i) with
    | none => quoteEnd? s quote i = none
    | some (_, rest) => ∃ j, quoteEnd? s quote i = some j ∧ i ≤ j ∧ rest = bytesFrom s (j + 1) := by
  fun_induction quoteEnd? s quote i with
  | case1 i none => rw [bytesFrom_of_byteAt?_eq_none none, throughQuote?]
  | case2 i here ih =>
    rw [bytesFrom_of_byteAt?_eq_some here]
    cases next : byteAt? s (i + 1) with
    | none =>
      rw [bytesFrom_of_byteAt?_eq_none next]
      have past := byteAt?_eq_none_iff.1 next
      exact quoteEnd?_of_byteAt?_eq_none (byteAt?_eq_none_iff.2 (by omega))
    | some d =>
      rw [bytesFrom_of_byteAt?_eq_some next, throughQuote?_slash]
      cases found : throughQuote? quote (bytesFrom s (i + 2)) with
      | none => simpa [found] using ih
      | some parts =>
        rw [found] at ih
        obtain ⟨j, close, along, rest⟩ := ih
        exact ⟨j, close, by omega, rest⟩
  | case3 i here noSlash =>
    rw [bytesFrom_of_byteAt?_eq_some here, throughQuote?_quote noSlash]
    exact ⟨i, rfl, Nat.le_refl i, rfl⟩
  | case4 i c here noSlash noQuote ih =>
    rw [bytesFrom_of_byteAt?_eq_some here, throughQuote?_cons noSlash noQuote]
    cases found : throughQuote? quote (bytesFrom s (i + 1)) with
    | none => simpa [found] using ih
    | some parts =>
      rw [found] at ih
      obtain ⟨j, close, along, rest⟩ := ih
      exact ⟨j, close, by omega, rest⟩

/-- A literal or any other byte is passed as the reader passes it. -/
theorem advance_bytesFrom (here : byteAt? s i = some c) :
    match passOne opens stack c (bytesFrom s (i + 1)) with
    | .error fault => advance opens s stack i c = done (.error fault)
    | .ok (next, rest) =>
      ∃ j, advance opens s stack i c = done (.ok (next, j)) ∧ i < j ∧ rest = bytesFrom s j := by
  unfold passOne advance
  by_cases isQuote : c = '"' ∨ c = '\''
  · rw [if_pos isQuote, if_pos isQuote, skipQuoted, here]
    have ends := quoteEnd?_bytesFrom s c (i + 1)
    cases found : throughQuote? c (bytesFrom s (i + 1)) with
    | none =>
      rw [found] at ends
      simp [ends]
    | some parts =>
      rw [found] at ends
      obtain ⟨j, close, along, rest⟩ := ends
      exact ⟨j + 1, by simp [close], by omega, rest⟩
  · rw [if_neg isQuote, if_neg isQuote]
    cases Nesting.step opens ⟨stack, .outside⟩ c with
    | error fault => rfl
    | ok next => exact ⟨i + 1, rfl, Nat.lt_succ_self i, rfl⟩

/-! ### The scanner and the search -/

/-- The scanner ends where a scan over the bytes ends. -/
theorem scan_eq (opens stops s stack : List Char) (i : Nat) :
    scan opens stops s stack i =
      done (((scanFrom opens stops ⟨stack, .outside⟩ (bytesFrom s i)).map (·.2)).map (placeOf s)) := by
  induction left : byteLength s - i using Nat.strong_induction_on generalizing stack i with
  | _ n ih =>
    cases here : byteAt? s i with
    | none =>
      rw [scan_of_byteAt?_eq_none here, bytesFrom_of_byteAt?_eq_none here]
      cases stack <;> rfl
    | some c =>
      have inside := lt_of_byteAt? here
      rw [scan_of_byteAt?_eq_some here]
      by_cases stop : stack = [] ∧ c ∈ stops
      · have stops' : (⟨stack, .outside⟩ : Nesting) = .top ∧ c ∈ stops := by simpa [Nesting.top] using stop
        have place := placeOf_bytesFrom (Nat.le_of_lt inside)
        rw [bytesFrom_of_byteAt?_eq_some here] at place ⊢
        rw [if_pos stop, scanFrom, if_pos stops', map_ok, map_ok, place, pure_eq_done]
      · have passes := @advance_bytesFrom s opens stack c i here
        rw [if_neg stop, bytesFrom_of_byteAt?_eq_some here, scanFrom_passOne stop]
        cases passed : passOne opens stack c (bytesFrom s (i + 1)) with
        | error fault =>
          rw [passed] at passes
          rw [passes]
          rfl
        | ok found =>
          obtain ⟨next, rest⟩ := found
          rw [passed] at passes
          obtain ⟨j, run, along, rfl⟩ := passes
          rw [run, done_ok_bind, check_of along, done_ok_bind, ok_bind]
          exact ih (byteLength s - j) (by omega) next j rfl

/-- The search for a closing bracket ends where the search over the bytes ends, one place before what it leaves. -/
theorem closeAt_eq {wanted : Char} (last : stack.getLast?.map closerOf = some wanted) (i : Nat) :
    (· + 1) <$> closeAt wanted s stack i =
      done (((closeFrom wanted ⟨stack, .outside⟩ (bytesFrom s i)).map (·.2)).map (placeOf s)) := by
  have deep : stack ≠ [] := by
    rintro rfl
    simp at last
  induction left : byteLength s - i using Nat.strong_induction_on generalizing stack i with
  | _ n ih =>
    cases here : byteAt? s i with
    | none =>
      rw [closeAt_of_byteAt?_eq_none here, bytesFrom_of_byteAt?_eq_none here, map_done]
      rfl
    | some c =>
      have inside := lt_of_byteAt? here
      have passes := @advance_bytesFrom s brackets stack c i here
      rw [closeAt_of_byteAt?_eq_some here, map_bind, bytesFrom_of_byteAt?_eq_some here, closeFrom_passOne deep]
      cases passed : passOne brackets stack c (bytesFrom s (i + 1)) with
      | error fault =>
        rw [passed] at passes
        rw [passes]
        rfl
      | ok found =>
        obtain ⟨next, rest⟩ := found
        rw [passed] at passes
        obtain ⟨j, run, along, rfl⟩ := passes
        rw [run, done_ok_bind, ok_bind]
        rcases of_passOne deep passed with ⟨still, same⟩ | ⟨rfl, behind, closed⟩
        · rw [if_neg still, behindClose_of_ne still, check_of along, done_ok_bind]
          exact ih (byteLength s - j) (by omega) (same ▸ last) j still rfl
        · have own : c = wanted := by simpa [closed] using last
          rw [if_pos rfl, behindClose, if_pos rfl, behind, check_of own, done_ok_bind, map_ok,
            placeOf_bytesFrom (Nat.succ_le_of_lt inside)]
          rfl

/-- What is left behind a front part begins as many places further on. -/
theorem bytesFrom_add {front rest : List Char} (h : bytesFrom s i = front ++ rest) :
    bytesFrom s (i + front.length) = rest := by
  rw [bytesFrom, ← List.drop_drop, List.map_drop]
  exact (congrArg (List.drop front.length) h).trans (List.drop_left' rfl)

/-- The place of the bracket that closes the one here, by what the search over the bytes takes. -/
theorem matchingClose_eq {bracket : Char} (here : byteAt? s i = some bracket) :
    matchingClose s i = done ((throughClose bracket (bytesFrom s (i + 1))).map fun found => i + found.1.length) := by
  have inside := lt_of_byteAt? here
  have last : [bracket].getLast?.map closerOf = some (closerOf bracket) := rfl
  have run := closeAt_eq (s := s) last (i + 1)
  rw [matchingClose, here, the_some, done_ok_bind]
  rw [← throughClose] at run
  cases found : throughClose bracket (bytesFrom s (i + 1)) with
  | error fault =>
    rw [found] at run
    exact map_eq_done_error run
  | ok parts =>
    obtain ⟨piece, rest⟩ := parts
    rw [found] at run
    obtain ⟨j, ends, place⟩ := map_eq_done_ok run
    have whole := congrArg List.length (throughClose_append found)
    rw [List.length_append, bytesFrom, List.length_map, List.length_drop, length_bytes] at whole
    have along : j = i + piece.length := by
      have place : j + 1 = byteLength s - rest.length := place
      omega
    rw [ends, along]
    rfl

/-! ### Main statement -/

/-- A scan from any byte on meets its definition. -/
theorem exists_scanned (sub : opens ⊆ brackets) (stops s : List Char) (i : Nat) :
    ∃ x, Scanned opens stops (bytesFrom s i) x ∧
      scan opens stops s [] i = done (x.map fun found => placeOf s found.2) := by
  refine ⟨scanFrom opens stops .top (bytesFrom s i), (scanned_iff sub).2 rfl, ?_⟩
  rw [scan_eq, ← Nesting.top]
  cases scanFrom opens stops .top (bytesFrom s i) <;> rfl

/-- The closing bracket is behind the balanced bytes that follow the opening one. -/
theorem matchingClose_eq_ok_iff {bracket : Char} (known : bracket ∈ brackets) (here : byteAt? s i = some bracket)
    (j : Nat) :
    matchingClose s i = done (.ok j) ↔
      ∃ inner, Balanced brackets inner ∧ bytesFrom s (i + 1) = inner ++ closerOf bracket :: bytesFrom s (j + 1) ∧
        j = i + 1 + inner.length := by
  rw [matchingClose_eq here]
  constructor
  · intro ends
    obtain ⟨⟨piece, rest⟩, found, rfl⟩ := map_eq_ok_iff.1 (Option.some.inj ends)
    obtain ⟨inner, balanced, rfl, whole⟩ := (throughClose_eq_ok_iff known).1 found
    have behind := bytesFrom_add whole
    have place : i + (inner ++ [closerOf bracket]).length = i + 1 + inner.length := by
      rw [List.length_append, List.length_singleton]
      omega
    rw [Nat.add_right_comm] at behind
    refine ⟨inner, balanced, ?_, place⟩
    rw [behind, whole, ← List.append_cons]
  · rintro ⟨inner, balanced, whole, rfl⟩
    rw [List.append_cons] at whole
    rw [(throughClose_eq_ok_iff known).2 ⟨inner, balanced, rfl, whole⟩, map_ok, List.length_append,
      List.length_singleton, Nat.add_comm inner.length, Nat.add_assoc]

/-- A list of parts that a reader would tell apart is cut into them. -/
theorem items_of_balanced (sub : opens ⊆ brackets) {parts : List (List Char)}
    (each : ∀ p ∈ parts, p ≠ [] ∧ trim p = p ∧ Balanced opens p ∧ NoStop opens [','] p) :
    items opens (join [','] parts) = .ok parts := by
  apply items_join
  intro p mem
  obtain ⟨filled, trimmed, balanced, none⟩ := each p mem
  exact ⟨filled, trimmed ▸ trimmed_trim p, (clear_iff_balanced sub).2 ⟨balanced, none⟩⟩

/-- **The scanner meets its definition.** From any byte of any text on it ends at the first stop outside of literals
and brackets, or at the end, and fails just where before that a literal or a bracket has no end or a closing bracket
does not belong to the innermost open one. The search for the closing bracket is such a scan up to that bracket, and
ends behind the balanced bytes that follow the opening one. A list of balanced parts is cut into these parts. -/
theorem scanner_meets_definition (sub : opens ⊆ brackets) :
    (∀ stops cs x, Scanned opens stops cs x ↔ scanFrom opens stops .top cs = x) ∧
    (∀ stops s i, ∃ x, Scanned opens stops (bytesFrom s i) x ∧
      scan opens stops s [] i = done (x.map fun found => placeOf s found.2)) ∧
    (∀ bracket ∈ brackets,
      (∀ cs, ∃ x, Scanned brackets [closerOf bracket] cs x ∧ throughClose bracket cs = closing bracket x) ∧
      ∀ s i, byteAt? s i = some bracket →
        matchingClose s i =
          done ((throughClose bracket (bytesFrom s (i + 1))).map fun found => i + found.1.length) ∧
        ∀ j, matchingClose s i = done (.ok j) ↔
          ∃ inner, Balanced brackets inner ∧
            bytesFrom s (i + 1) = inner ++ closerOf bracket :: bytesFrom s (j + 1) ∧ j = i + 1 + inner.length) ∧
    ∀ parts : List (List Char),
      (∀ p ∈ parts, p ≠ [] ∧ trim p = p ∧ Balanced opens p ∧ NoStop opens [','] p) →
      items opens (join [','] parts) = .ok parts ∧
        splitTopLevel opens (join [','] parts) = done (.ok parts) := by
  refine ⟨fun _ _ _ => scanned_iff sub, exists_scanned sub, ?_, ?_⟩
  · intro bracket known
    refine ⟨fun cs => ⟨_, (scanned_iff (List.Subset.refl _)).2 rfl, throughClose_eq known cs⟩, ?_⟩
    intro s i here
    exact ⟨matchingClose_eq here, matchingClose_eq_ok_iff known here⟩
  · intro parts each
    have cut := items_of_balanced sub each
    exact ⟨cut, by rw [splitTopLevel_eq sub, cut]⟩

/-- Square brackets that are not counted, beside angle brackets that are, and a comma in a literal. -/
theorem scanner_meets_definition_angles :
    ['(', '<'] ⊆ brackets ∧
      splitTopLevel ['(', '<'] "[<a,>,\"x,\\\"\"".toList = done (.ok ["[<a,>".toList, "\"x,\\\"\"".toList]) := by
  have sub : ['(', '<'] ⊆ brackets := by decide
  refine ⟨sub, ?_⟩
  obtain ⟨-, -, -, cuts⟩ := scanner_meets_definition sub
  refine (cuts ["[<a,>".toList, "\"x,\\\"\"".toList] ?_).2
  intro p mem
  have walks : p ≠ [] ∧ trim p = p ∧ Nesting.top.through ['(', '<'] [','] p = some .top := by
    revert p
    decide
  exact ⟨walks.1, walks.2.1, (clear_iff_balanced sub).1 walks.2.2⟩

end ApiSurface.InPlace
