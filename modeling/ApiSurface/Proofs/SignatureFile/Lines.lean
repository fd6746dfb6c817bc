import ApiSurface.Proofs.Text.Bytes
import ApiSurface.Proofs.Text.SingleLine
import ApiSurface.SignatureFile.Writer

/-!
Lines of a file, written and read. Main statements: lines that were written are read one by one
(`ofText_lined`), a line that was read holds no line feed (`text_of_mem_ofText`), and the lines of a file are
those of the text that its bytes spell (`ofBytes_utf8`).
-/

namespace ApiSurface.SignatureFile

open ApiSurface.Text ApiSurface.Writer

/-- Lines of text with their numbers; this one is the first. -/
def numbered : Nat → List (List Char) → List SourceLine
  | _, [] => []
  | n, line :: more => .text n line :: numbered (n + 1) more

@[simp] theorem numbered_nil (n : Nat) : numbered n [] = [] := rfl

@[simp] theorem numbered_cons (n : Nat) (line : List Char) (more : List (List Char)) :
    numbered n (line :: more) = .text n line :: numbered (n + 1) more := rfl

theorem numbered_append (n : Nat) (a b : List (List Char)) :
    numbered n (a ++ b) = numbered n a ++ numbered (n + a.length) b := by
  induction a generalizing n with
  | nil => rfl
  | cons line a ih => simp [ih, Nat.add_comm, Nat.add_left_comm]

theorem length_numbered (n : Nat) (ls : List (List Char)) : (numbered n ls).length = ls.length := by
  induction ls generalizing n with
  | nil => rfl
  | cons line ls ih => simp [ih]

/-- A line is cut off behind its line feed. -/
theorem cutLines_append {line : List Char} (free : '\n' ∉ line) (rest : List Char) :
    cutLines (· == '\n') (line ++ '\n' :: rest) =
      (line ++ ['\n']) :: cutLines (· == '\n') rest := by
  induction line with
  | nil => simp [cutLines]
  | cons c line ih =>
    obtain ⟨differ, behind⟩ := List.ne_and_not_mem_of_not_mem_cons free
    simp [cutLines, Ne.symm differ, ih behind]

/-- The end of a line that is written is taken off with what ends the line itself. -/
theorem trimLineEnd_lined (line : List Char) : trimLineEnd (lined line) = trimLineEnd line := by
  simp [trimLineEnd, lined]

/-- What a line begins with stays, unless it could be the end of a line. -/
theorem trimLineEnd_lead (lead : List Char) {c : Char} (other : c ≠ '\r' ∧ c ≠ '\n') (t : List Char) :
    trimLineEnd (lead ++ [c] ++ t) = lead ++ [c] ++ trimLineEnd t := by
  have stop : List.dropWhile (fun d => d == '\r' || d == '\n') ((lead ++ [c]).reverse) =
      (lead ++ [c]).reverse := by simp [other]
  rw [trimLineEnd, trimLineEnd, List.reverse_append, List.dropWhile_append, stop]
  split
  · rename_i none
    rw [List.isEmpty_iff.1 none]
    simp
  · rw [List.reverse_append, List.reverse_reverse]

theorem trimLineEnd_of_singleLine {t : List Char} (h : SingleLine t) : trimLineEnd t = t := by
  rw [← trimLineEnd_lined, lined, trimLineEnd_append h]

/-! ### The lines of a text -/

/-- The lines of a text, each without its end. -/
def lineTexts (cs : List Char) : List (List Char) := (cutLines (· == '\n') cs).map trimLineEnd

theorem number_map_some (n : Nat) (lines : List (List Char)) :
    number n (lines.map some) = numbered n (lines.map trimLineEnd) := by
  induction lines generalizing n with
  | nil => rfl
  | cons line lines ih => simp only [List.map_cons, number, numbered_cons, ih]

/-- The lines of a text are numbered from one on. -/
theorem ofText_eq_numbered (cs : List Char) : ofText cs = numbered 1 (lineTexts cs) :=
  number_map_some 1 _

/-- Text behind the end of a line begins a line of its own. -/
theorem cutLines_append_of_isEnd {α : Type} {isEnd : α → Bool} {a : List α} {last : α}
    (ends : a.getLast? = some last) (isLast : isEnd last = true) (b : List α) :
    cutLines isEnd (a ++ b) = cutLines isEnd a ++ cutLines isEnd b := by
  induction a with
  | nil => cases ends
  | cons x a ih =>
    cases a with
    | nil =>
      obtain rfl : x = last := by simpa using ends
      simp [cutLines, isLast]
    | cons y a =>
      have later := ih (by simpa using ends)
      rw [List.cons_append, cutLines, cutLines, later]
      split
      · rfl
      · -- a text with characters has lines
        cases lines : cutLines isEnd (y :: a) with
        | nil =>
          have none := flatten_cutLines isEnd (y :: a)
          simp [lines] at none
        | cons line more => rfl

theorem lineTexts_append {a : List Char} (ends : a.getLast? = some '\n') (b : List Char) :
    lineTexts (a ++ b) = lineTexts a ++ lineTexts b := by
  rw [lineTexts, cutLines_append_of_isEnd ends rfl, List.map_append]
  rfl

/-- Lines that were written come before those of the text that follows them. -/
theorem lineTexts_lined_append {ls : List (List Char)} (free : ∀ line ∈ ls, '\n' ∉ line) (rest : List Char) :
    lineTexts (ls.flatMap lined ++ rest) = ls.map trimLineEnd ++ lineTexts rest := by
  induction ls with
  | nil => rfl
  | cons line ls ih =>
    have more := ih fun l mem => free l (by simp [mem])
    have first : lineTexts (line ++ '\n' :: (ls.flatMap lined ++ rest)) =
        trimLineEnd line :: lineTexts (ls.flatMap lined ++ rest) := by
      rw [lineTexts, cutLines_append (free line (by simp)), List.map_cons, ← lined, trimLineEnd_lined]
      rfl
    rw [List.map_cons, List.cons_append, ← more, ← first, List.flatMap_cons, lined, List.append_assoc,
      List.append_assoc, List.singleton_append]

/-- Lines that were written are the lines of their text. -/
theorem lineTexts_lined {ls : List (List Char)} (single : ∀ line ∈ ls, SingleLine line) :
    lineTexts (ls.flatMap lined) = ls := by
  have free : ∀ line ∈ ls, '\n' ∉ line := fun line mem inside => (single line mem '\n' inside).1 rfl
  have kept : ls.map trimLineEnd = ls := by
    simpa using List.map_congr_left fun line mem => trimLineEnd_of_singleLine (single line mem)
  have whole := lineTexts_lined_append free []
  rwa [kept, List.append_nil, show lineTexts [] = [] from rfl, List.append_nil] at whole

/-- Lines that were written are read one by one, whatever follows them. -/
theorem ofText_lined_append {ls : List (List Char)} (free : ∀ line ∈ ls, '\n' ∉ line)
    (rest : List Char) :
    ofText (ls.flatMap lined ++ rest) = numbered 1 (ls.map trimLineEnd) ++
      numbered (1 + ls.length) (lineTexts rest) := by
  rw [ofText_eq_numbered, lineTexts_lined_append free, numbered_append, List.length_map]

/-- Lines that were written are read one by one. -/
theorem ofText_lined {ls : List (List Char)} (single : ∀ line ∈ ls, SingleLine line) :
    ofText (ls.flatMap lined) = numbered 1 ls := by
  rw [ofText_eq_numbered, lineTexts_lined single]

/-! ### Single lines -/

/-- In a cut line a line feed is the last character only. -/
theorem notMem_dropLast_of_mem_cutLines {cs line : List Char} (mem : line ∈ cutLines (· == '\n') cs) :
    '\n' ∉ line.dropLast := by
  induction cs generalizing line with
  | nil => cases mem
  | cons c cs ih =>
    simp only [cutLines] at mem
    split at mem
    · rcases List.mem_cons.1 mem with rfl | mem
      · simp
      · exact ih mem
    · rename_i differ
      have other : c ≠ '\n' := by simpa using differ
      split at mem
      · obtain rfl := List.mem_singleton.1 mem
        simp
      · rename_i first lines found
        rcases List.mem_cons.1 mem with rfl | mem
        · have old : '\n' ∉ first.dropLast := ih (by simp [found])
          cases first with
          | nil => simp
          | cons d first =>
            simp only [List.dropLast_cons_cons, List.mem_cons, not_or] at old ⊢
            exact ⟨other.symm, old⟩
        · exact ih (by simp [found, mem])

/-- A line keeps no line feed once its end is taken off. -/
theorem notMem_trimLineEnd {line : List Char} (inner : '\n' ∉ line.dropLast) :
    '\n' ∉ trimLineEnd line := by
  intro mem
  obtain ⟨tail, whole⟩ : trimLineEnd line <+: line := by
    have part := List.dropWhile_suffix (l := line.reverse) fun c => c == '\r' || c == '\n'
    simpa [trimLineEnd] using List.reverse_prefix.2 part
  rcases List.eq_nil_or_concat' (trimLineEnd line) with none | ⟨front, c, found⟩
  · rw [none] at mem
    cases mem
  · have last : c ≠ '\n' := by
      have kept := List.head?_dropWhile_not (fun c => c == '\r' || c == '\n') line.reverse
      rw [trimLineEnd, List.reverse_eq_iff] at found
      rw [found] at kept
      simp only [List.reverse_append, List.reverse_singleton, List.singleton_append,
        List.head?_cons] at kept
      rintro rfl
      simp at kept
    have early : '\n' ∈ front := by
      rw [found, List.mem_append, List.mem_singleton] at mem
      exact mem.resolve_right last.symm
    refine inner ?_
    rw [← whole, found, List.append_assoc, List.dropLast_append_of_ne_nil (by simp)]
    exact List.mem_append_left _ early

/-- The lines of a text hold no line feed, and all of them are text. -/
theorem text_of_mem_ofText {cs : List Char} {l : SourceLine} (mem : l ∈ ofText cs) :
    ∃ n line, l = .text n line ∧ '\n' ∉ line := by
  have inner : ∀ line ∈ cutLines (· == '\n') cs, '\n' ∉ line.dropLast := fun _ mem =>
    notMem_dropLast_of_mem_cutLines mem
  rw [ofText] at mem
  generalize cutLines (· == '\n') cs = lines at inner mem
  generalize 1 = n at mem
  induction lines generalizing n with
  | nil => cases mem
  | cons line lines ih =>
    simp only [List.map_cons, number, List.mem_cons] at mem
    rcases mem with rfl | mem
    · exact ⟨n, trimLineEnd line, rfl, notMem_trimLineEnd (inner line (by simp))⟩
    · exact ih (fun l inList => inner l (by simp [inList])) _ mem

/-! ### Bytes -/

/-- A text is read back from its bytes in UTF-8. -/
theorem decodeUtf8?_utf8 (cs : List Char) : decodeUtf8? (cs.flatMap String.utf8EncodeChar) = some cs := by
  have bytes : (⟨(cs.flatMap String.utf8EncodeChar).toArray⟩ : ByteArray) = cs.utf8Encode := by
    rw [List.utf8Encode]
    exact ByteArray.ext (by simp)
  have valid := ByteArray.isValidUTF8_utf8Encode (l := cs)
  have whole : String.fromUTF8 cs.utf8Encode valid = String.ofList cs := by
    rw [← String.toByteArray_inj, String.toByteArray_ofList]
    rfl
  rw [decodeUtf8?, bytes, String.fromUTF8?, dif_pos valid, whole, Option.map_some, String.toList_ofList]

/-- Only the line feed is spelled with its byte. -/
theorem eq_lineFeed_of_mem_utf8 {c : Char} (mem : 10 ∈ String.utf8EncodeChar c) : c = '\n' :=
  eq_of_mem_utf8 (c := '\n') (by decide) mem

/-- Items that end no line begin the next one. -/
theorem cutLines_append_of_inner {α : Type} {isEnd : α → Bool} {as : List α} (filled : as ≠ [])
    (inner : ∀ a ∈ as, isEnd a = false) (rest : List α) :
    cutLines isEnd (as ++ rest) = match cutLines isEnd rest with
      | [] => [as]
      | line :: lines => (as ++ line) :: lines := by
  induction as with
  | nil => exact absurd rfl filled
  | cons a as ih =>
    have first : isEnd a = false := inner a (by simp)
    rw [List.cons_append, cutLines, if_neg (by simp [first])]
    cases as with
    | nil => rfl
    | cons b as =>
      rw [ih (by simp) fun x mem => inner x (by simp [mem])]
      cases cutLines isEnd rest <;> rfl

/-- The lines of the bytes of a text are the bytes of its lines. -/
theorem cutLines_utf8 (cs : List Char) : cutLines (· == 10) (cs.flatMap String.utf8EncodeChar) =
    (cutLines (· == '\n') cs).map (·.flatMap String.utf8EncodeChar) := by
  induction cs with
  | nil => rfl
  | cons c cs ih =>
    by_cases ends : c = '\n'
    · subst ends
      have byte : String.utf8EncodeChar '\n' = [10] := by decide
      simp [cutLines, byte, ih]
    · have inner : ∀ b ∈ String.utf8EncodeChar c, (b == 10) = false := fun b mem =>
        beq_false_of_ne fun same => ends (eq_lineFeed_of_mem_utf8 (same ▸ mem))
      rw [List.flatMap_cons, cutLines_append_of_inner String.utf8EncodeChar_ne_nil inner, ih, cutLines,
        if_neg (by simpa using ends)]
      cases cutLines (· == '\n') cs <;> simp

/-- The lines of a file are those of the text that it holds. -/
theorem ofBytes_utf8 (cs : List Char) : ofBytes (cs.flatMap String.utf8EncodeChar) = ofText cs := by
  have each : decodeUtf8? ∘ (fun line : List Char => line.flatMap String.utf8EncodeChar) = some := by
    funext line
    exact decodeUtf8?_utf8 line
  rw [ofBytes, ofText, cutLines_utf8, List.map_map, each]

end ApiSurface.SignatureFile
