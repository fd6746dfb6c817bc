import ApiSurface.Text.Blank
import ApiSurface.Text.Utf8

/-!
The physical lines of a signature file. Lines end at line feeds; the carriage returns and line feeds at
the end of a line do not belong to its text. A line of bytes that are no text has no number of its own.
Main statement: numbers only go up (`number_le_of_mem_number`).
-/

namespace ApiSurface.SignatureFile

open ApiSurface.Text

/-- A line of a file. -/
inductive SourceLine where
  | text (number : Nat) (cs : List Char)
  /-- The bytes are no text in UTF-8. -/
  | undecodable
  deriving DecidableEq, Repr

/-- The pieces that end right after a line feed, and what is left, if anything. -/
def cutLines {α : Type} (isEnd : α → Bool) : List α → List (List α)
  | [] => []
  | a :: more =>
    if isEnd a then [a] :: cutLines isEnd more
    else
      match cutLines isEnd more with
      | [] => [[a]]
      | line :: lines => (a :: line) :: lines

/-- Lines with their numbers; this one is the first. -/
def number : Nat → List (Option (List Char)) → List SourceLine
  | _, [] => []
  | n, some cs :: more => .text n (trimLineEnd cs) :: number (n + 1) more
  | n, none :: more => .undecodable :: number n more

/-- The lines of a text. -/
def ofText (cs : List Char) : List SourceLine := number 1 ((cutLines (· == '\n') cs).map some)

/-- The lines of a file of bytes. -/
def ofBytes (bytes : List UInt8) : List SourceLine :=
  number 1 ((cutLines (· == 10) bytes).map decodeUtf8?)

/-- Nothing is lost when lines are cut. -/
theorem flatten_cutLines {α : Type} (isEnd : α → Bool) (as : List α) :
    (cutLines isEnd as).flatten = as := by
  induction as with
  | nil => rfl
  | cons a more ih =>
    simp only [cutLines]
    split
    · simp [ih]
    · split
      · rename_i none
        rw [none] at ih
        simp at ih
        simp [← ih]
      · rename_i found
        rw [found] at ih
        simpa using ih

/-- Every number is at least that of the first line. -/
theorem number_le_of_mem_number {n m : Nat} {cs : List Char} {lines : List (Option (List Char))}
    (h : .text m cs ∈ number n lines) : n ≤ m := by
  induction lines generalizing n with
  | nil => cases h
  | cons line more ih =>
    cases line with
    | none =>
      simp only [number, List.mem_cons, reduceCtorEq, false_or] at h
      exact ih h
    | some text =>
      simp only [number, List.mem_cons, SourceLine.text.injEq] at h
      rcases h with ⟨rfl, -⟩ | h
      · exact Nat.le_refl _
      · exact Nat.le_of_succ_le (ih h)

end ApiSurface.SignatureFile
