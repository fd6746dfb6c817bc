import ApiSurface.Proofs.Result
import ApiSurface.Proofs.Text.Bytes
import ApiSurface.Proofs.Text.Cut

/-!
Programs that read a text in place: they keep the text as a whole and hand on places in it, which are
numbers of bytes. Such a program can get stuck, where a reader that hands on what is left of the text
cannot: by cutting where no character begins or behind the end, by a condition that it takes for granted
and that fails, or by not getting on. `Follows` relates the two: the program is never stuck, has the
faults and the values of the reader, and the place it hands on is where the rest of the reader begins.
-/

namespace ApiSurface.InPlace

open ApiSurface.Text

variable {ε ε' α β γ : Type}

/-- A program that ends with a value or a fault, or is stuck. -/
abbrev Run (ε : Type) : Type → Type := ExceptT ε Option

/-- The program that goes on no more. -/
def stuck : Run ε α := ExceptT.mk none

/-- The program that ends with this result. -/
def done (x : Except ε α) : Run ε α := ExceptT.mk (some x)

/-- Goes on with a value that has to be there. -/
def the : Option α → Run ε α
  | some a => pure a
  | none => stuck

/-- Goes on if this holds, as it has to. -/
def check (p : Prop) [Decidable p] : Run ε (PLift p) := if h : p then pure ⟨h⟩ else stuck

/-- The text between two places. -/
def slice (s : List Char) (i j : Nat) : Run ε (List Char) := the (slice? s i j)

/-- The text from a place on. -/
def sliceFrom (s : List Char) (i : Nat) : Run ε (List Char) := slice s i (byteLength s)

/-- The place where a mark first occurs. -/
def find? (mark s : List Char) : Option Nat := (cutAt? mark s).map fun (before, _) => byteLength before

/-- The program with its faults in another form. -/
def mapError (f : ε → ε') (r : Run ε α) : Run ε' α := ExceptT.mk (r.run.map (Except.mapError f))

/-- From one place to another the program gets on, and stays in the text. -/
def Ahead (s : List Char) (i j : Nat) : Prop := i < j ∧ j ≤ byteLength s

instance (s : List Char) (i j : Nat) : Decidable (Ahead s i j) := inferInstanceAs (Decidable (_ ∧ _))

/-- The program ends, and a place that it hands on is further on in the text, where it can be cut. -/
def Ends (s : List Char) (i : Nat) (r : Run ε (α × Nat)) : Prop :=
  ∃ x, r = done x ∧ ∀ a j, x = .ok (a, j) → Ahead s i j ∧ (restAt? s j).isSome

/-! ### Ends of programs -/

@[simp] theorem done_ok_bind (a : α) (k : α → Run ε β) : (done (.ok a) >>= k) = k a := rfl

@[simp] theorem done_error_bind (e : ε) (k : α → Run ε β) : (done (.error e) >>= k) = done (.error e) := rfl

@[simp] theorem pure_eq_done (a : α) : (pure a : Run ε α) = done (.ok a) := rfl

@[simp] theorem throw_eq_done (e : ε) : (throw e : Run ε α) = done (.error e) := rfl

@[simp] theorem mapError_done (f : ε → ε') (x : Except ε α) : mapError f (done x) = done (x.mapError f) := rfl

@[simp] theorem the_some (a : α) : (the (some a) : Run ε α) = done (.ok a) := rfl

theorem map_done (f : α → β) (x : Except ε α) : (f <$> done x : Run ε β) = done (x.map f) := by
  cases x <;> rfl

theorem map_eq_done_error {f : α → β} {r : Run ε α} {e : ε} (h : f <$> r = done (.error e)) : r = done (.error e) := by
  match r with
  | none => cases h
  | some (.error e') => cases h; rfl
  | some (.ok a) => cases h

theorem map_eq_done_ok {f : α → β} {r : Run ε α} {b : β} (h : f <$> r = done (.ok b)) :
    ∃ a, r = done (.ok a) ∧ f a = b := by
  match r with
  | none => cases h
  | some (.error e) => cases h
  | some (.ok a) =>
    cases h
    exact ⟨a, rfl, rfl⟩

theorem check_of {p : Prop} [Decidable p] (h : p) : (check p : Run ε (PLift p)) = done (.ok ⟨h⟩) := dif_pos h

/-- What is done in turn is done as a whole. -/
theorem done_bind {x : Except ε α} {k : α → Run ε β} {f : α → Except ε β} (next : ∀ a, x = .ok a → k a = done (f a)) :
    (done x >>= k) = done (x >>= f) := by
  cases x with
  | error e => rfl
  | ok a => exact next a rfl

theorem mapM_done {k : α → Run ε β} {f : α → Except ε β} (l : List α) (each : ∀ a ∈ l, k a = done (f a)) :
    l.mapM k = done (l.mapM f) := by
  induction l with
  | nil => rfl
  | cons a l ih =>
    rw [List.mapM_cons, List.mapM_cons, each a (by simp), ih fun b mem => each b (by simp [mem])]
    exact done_bind fun b _ => done_bind fun bs _ => rfl

variable {s a b cs rest : List Char} {i j : Nat}

theorem slice_of_restAt? (h : restAt? s i = some (a ++ b)) (h' : restAt? s j = some b) :
    (slice s i j : Run ε (List Char)) = done (.ok a) := by
  rw [slice, slice?_of_restAt? h h', the_some]

theorem sliceFrom_of_restAt? (h : restAt? s i = some rest) : (sliceFrom s i : Run ε (List Char)) = done (.ok rest) := by
  rw [sliceFrom, slice, slice?_byteLength h, the_some]

/-! ### Marks -/

/-- A mark is found where the text is cut at it. -/
theorem find?_of_cutAt? {mark before after : List Char} (found : cutAt? mark cs = some (before, after))
    (h : restAt? s i = some cs) :
    find? mark cs = some (byteLength before) ∧ restAt? s i = some (before ++ (mark ++ after)) ∧
      restAt? s (i + byteLength before) = some (mark ++ after) := by
  have whole := eq_of_cutAt found
  rw [List.append_assoc] at whole
  subst whole
  exact ⟨by rw [find?, found, Option.map_some], h, restAt?_append h⟩

theorem find?_eq_none {mark : List Char} (missing : cutAt? mark cs = none) : find? mark cs = none := by
  rw [find?, missing, Option.map_none]

/-- A text up to the first place of one character. -/
theorem cutBefore_eq (c : Char) (cs : List Char) :
    cutBefore (· == c) cs =
      match cutAt? [c] cs with
      | none => (cs, [])
      | some (before, after) => (before, c :: after) := by
  cases found : cutAt? [c] cs with
  | none =>
    have free : c ∉ cs := by simpa [List.singleton_infix_iff] using cutAt?_eq_none_iff.1 found
    have other : ∀ d ∈ cs, (d == c) = false := fun d mem => beq_false_of_ne fun same => free (same ▸ mem)
    have whole : cutBefore (· == c) (cs ++ []) = (cs, []) := cutBefore_append other (by simp)
    rwa [List.append_nil] at whole
  | some parts =>
    obtain ⟨before, after⟩ := parts
    obtain ⟨rfl, free⟩ := of_cutAt?_singleton found
    exact cutBefore_append (fun d mem => beq_false_of_ne fun same => free (same ▸ mem)) (by simp)

/-! ### Programs and readers -/

/-- The program on the text `s` ends as the reader does, and the place it reaches is where the rest of the
reader begins, which is one of these. -/
def Follows (s : List Char) (among : List Char → Prop) (r : Run ε (α × Nat)) (x : Except ε (α × List Char)) : Prop :=
  match x with
  | .error e => r = done (.error e)
  | .ok (a, rest) => ∃ i, r = done (.ok (a, i)) ∧ restAt? s i = some rest ∧ among rest

namespace Follows

variable {among among' : List Char → Prop} {r : Run ε (α × Nat)} {x : Except ε (α × List Char)}

theorem fault (e : ε) : Follows s among (done (.error e) : Run ε (α × Nat)) (.error e) := rfl

theorem value (a : α) (place : restAt? s i = some rest) (mem : among rest) :
    Follows s among (done (.ok (a, i)) : Run ε (α × Nat)) (.ok (a, rest)) :=
  ⟨i, rfl, place, mem⟩

theorem of_error (h : Follows s among r x) {e : ε} (list : x = .error e) : r = done (.error e) := by
  subst list
  exact h

theorem of_ok (h : Follows s among r x) {a : α} (list : x = .ok (a, rest)) :
    ∃ i, r = done (.ok (a, i)) ∧ restAt? s i = some rest ∧ among rest := by
  subst list
  exact h

theorem mono (h : Follows s among r x) (imp : ∀ rest, among rest → among' rest) : Follows s among' r x := by
  cases list : x with
  | error e => exact h.of_error list
  | ok found =>
    obtain ⟨a, rest⟩ := found
    obtain ⟨i, run, place, mem⟩ := h.of_ok list
    exact ⟨i, run, place, imp rest mem⟩

/-- Steps that follow each other one by one do so in turn. -/
theorem bind {k : α × Nat → Run ε (β × Nat)} {f : α × List Char → Except ε (β × List Char)}
    (h : Follows s among r x)
    (next : ∀ a i rest, restAt? s i = some rest → among rest → Follows s among' (k (a, i)) (f (a, rest))) :
    Follows s among' (r >>= k) (x >>= f) := by
  cases list : x with
  | error e =>
    rw [h.of_error list]
    exact fault e
  | ok found =>
    obtain ⟨a, rest⟩ := found
    obtain ⟨i, run, place, mem⟩ := h.of_ok list
    rw [run]
    exact next a i rest place mem

/-- The last step hands on no place. -/
theorem bind_done {k : α × Nat → Run ε β} {f : α × List Char → Except ε β} (h : Follows s among r x)
    (next : ∀ a i rest, restAt? s i = some rest → among rest → k (a, i) = done (f (a, rest))) :
    (r >>= k) = done (x >>= f) := by
  cases list : x with
  | error e =>
    rw [h.of_error list]
    rfl
  | ok found =>
    obtain ⟨a, rest⟩ := found
    obtain ⟨i, run, place, mem⟩ := h.of_ok list
    rw [run]
    exact next a i rest place mem

theorem mapError (h : Follows s among r x) (f : ε → ε') : Follows s among (mapError f r) (x.mapError f) := by
  cases list : x with
  | error e =>
    rw [h.of_error list]
    exact fault (f e)
  | ok found =>
    obtain ⟨a, rest⟩ := found
    obtain ⟨i, run, place, mem⟩ := h.of_ok list
    rw [run]
    exact value a place mem

/-- The result of a program, with the place in bytes. -/
theorem eq_done (h : Follows s among r x) :
    r = done (x.map fun found => (found.1, byteLength s - byteLength found.2)) := by
  cases list : x with
  | error e => exact h.of_error list
  | ok found =>
    obtain ⟨a, rest⟩ := found
    obtain ⟨i, run, place, -⟩ := h.of_ok list
    have length := add_byteLength_of_restAt? place
    have same : byteLength s - byteLength rest = i := by omega
    rw [run, map_ok]
    simp only [same]

end Follows

/-- A text is left behind at least one character of another one. -/
def Behind (cs rest : List Char) : Prop := ∃ c ds, cs = c :: ds ∧ rest <:+ ds

namespace Behind

variable {ds : List Char}

theorem cons (c : Char) (rest : List Char) : Behind (c :: rest) rest := ⟨c, rest, rfl, List.suffix_refl rest⟩

theorem of_append (filled : a ≠ []) (rest : List Char) : Behind (a ++ rest) rest := by
  obtain ⟨c, a, rfl⟩ := List.exists_cons_of_ne_nil filled
  exact ⟨c, a ++ rest, rfl, List.suffix_append a rest⟩

theorem suffix (h : Behind cs rest) : rest <:+ cs := by
  obtain ⟨c, ds, rfl, less⟩ := h
  exact less.trans (List.suffix_cons c ds)

theorem length_lt (h : Behind cs rest) : rest.length < cs.length := by
  obtain ⟨c, ds, rfl, less⟩ := h
  have := less.length_le
  simp only [List.length_cons]
  omega

theorem of_suffix (h : Behind cs rest) (less : ds <:+ rest) : Behind cs ds := by
  obtain ⟨c, ds, rfl, less'⟩ := h
  exact ⟨c, ds, rfl, less.trans less'⟩

theorem mono (h : Behind cs rest) (more : cs <:+ ds) : Behind ds rest := by
  obtain ⟨c, es, rfl, less⟩ := h
  obtain ⟨front, rfl⟩ := more
  cases front with
  | nil => exact ⟨c, es, rfl, less⟩
  | cons d front => exact ⟨d, front ++ c :: es, rfl, (less.trans (List.suffix_cons c es)).trans (List.suffix_append ..)⟩

/-- Behind a text means further on. -/
theorem ahead (h : Behind cs rest) (place : restAt? s i = some cs) (place' : restAt? s j = some rest) : Ahead s i j := by
  obtain ⟨c, ds, rfl, less⟩ := h
  exact lt_of_restAt? place place' less

end Behind

namespace Follows

variable {among : List Char → Prop} {r : Run ε (α × Nat)} {x : Except ε (α × List Char)}

/-- The place that a program hands on is one of the reader's. -/
theorem reached (h : Follows s among r x) {a : α} (run : r = done (.ok (a, j))) :
    ∃ rest, restAt? s j = some rest ∧ among rest := by
  cases list : x with
  | error e => cases run.symm.trans (h.of_error list)
  | ok found =>
    obtain ⟨b, rest⟩ := found
    obtain ⟨i, run', place, mem⟩ := h.of_ok list
    cases run.symm.trans run'
    exact ⟨rest, place, mem⟩

/-- A program that follows a reader behind what it is given ends further on. -/
theorem ends (h : Follows s (Behind cs) r x) (start : restAt? s i = some cs) : Ends s i r := by
  cases list : x with
  | error e => exact ⟨.error e, h.of_error list, by simp⟩
  | ok found =>
    obtain ⟨a, rest⟩ := found
    obtain ⟨j, run, place, behind⟩ := h.of_ok list
    refine ⟨.ok (a, j), run, ?_⟩
    rintro _ _ ⟨⟩
    exact ⟨behind.ahead start place, by simp [place]⟩

end Follows

end ApiSurface.InPlace
