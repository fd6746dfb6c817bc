import ApiSurface.Files.Tree
import ApiSurface.Proofs.Result
import ApiSurface.Proofs.Text.Cut

/-!
Following paths through a tree of files. Main statements: in a tree whose names are proper and differ, the
files that are listed are those that names lead to (`mem_files_iff`), and a path below a directory leads
to what its names lead to there, or to nothing, unless something stands in its way (`find_join`).
-/

namespace ApiSurface

open ApiSurface.Text

/-- A text that can be the name of something in a directory. -/
structure IsFileName (name : List Char) : Prop where
  filled : name ≠ []
  notHere : name ≠ ['.']
  notAbove : name ≠ ['.', '.']
  slash : '/' ∉ name
  zero : '\x00' ∉ name
  short : byteLength name ≤ FileSystem.longestName

instance (name : List Char) : Decidable (IsFileName name) :=
  decidable_of_iff (name ≠ [] ∧ name ≠ ['.'] ∧ name ≠ ['.', '.'] ∧ '/' ∉ name ∧ '\x00' ∉ name ∧
    byteLength name ≤ FileSystem.longestName)
    ⟨fun ⟨filled, notHere, notAbove, slash, zero, short⟩ =>
        ⟨filled, notHere, notAbove, slash, zero, short⟩,
      fun h => ⟨h.filled, h.notHere, h.notAbove, h.slash, h.zero, h.short⟩⟩

namespace FileNode

mutual

/-- In each directory of the tree the names are proper and differ. -/
def Proper : FileNode → Prop
  | .file .. => True
  | .directory children => (children.map Prod.fst).Nodup ∧ ProperAll children

/-- The names are proper, and so are the trees below them. -/
def ProperAll : List (List Char × FileNode) → Prop
  | [] => True
  | (name, node) :: more => IsFileName name ∧ node.Proper ∧ ProperAll more

end

theorem properAll_iff {children : List (List Char × FileNode)} :
    ProperAll children ↔ ∀ entry ∈ children, IsFileName entry.1 ∧ entry.2.Proper := by
  induction children with
  | nil => simp [ProperAll]
  | cons entry more ih => simp [ProperAll, ih, and_assoc]

/-- What names lead to, one part of them after the other. -/
theorem get?_append (node : FileNode) (a b : List (List Char)) :
    node.get? (a ++ b) = (node.get? a).bind (·.get? b) := by
  induction a generalizing node with
  | nil => rfl
  | cons name a ih =>
    simp only [List.cons_append, get?]
    cases node.child? name with
    | none => rfl
    | some child => exact ih child

/-! ### Listed files -/

theorem mem_filesOf_iff {children : List (List Char × FileNode)} {way : List (List Char)}
    {bytes : List UInt8} :
    (way, bytes) ∈ filesOf children ↔
      ∃ name node below, (name, node) ∈ children ∧ (below, bytes) ∈ node.files ∧ way = name :: below := by
  induction children with
  | nil => simp [filesOf]
  | cons entry more ih =>
    obtain ⟨name, node⟩ := entry
    simp only [filesOf, List.mem_append, List.mem_map, ih, List.mem_cons, Prod.mk.injEq]
    constructor
    · rintro (⟨⟨below, _⟩, mem, rfl, rfl⟩ | ⟨name', node', below, mem, inside, rfl⟩)
      · exact ⟨name, node, below, .inl ⟨rfl, rfl⟩, mem, rfl⟩
      · exact ⟨name', node', below, .inr mem, inside, rfl⟩
    · rintro ⟨name', node', below, ⟨rfl, rfl⟩ | mem, inside, rfl⟩
      · exact .inl ⟨(below, bytes), inside, rfl, rfl⟩
      · exact .inr ⟨name', node', below, mem, inside, rfl⟩

/-- Where names differ, each stands for what is listed with it. -/
theorem lookup_eq_some_iff {children : List (List Char × FileNode)} (differ : (children.map Prod.fst).Nodup)
    {name : List Char} {node : FileNode} :
    children.lookup name = some node ↔ (name, node) ∈ children := by
  induction children with
  | nil => simp
  | cons entry more ih =>
    obtain ⟨first, child⟩ := entry
    obtain ⟨apart, differ⟩ := List.nodup_cons.1 differ
    rw [List.lookup_cons]
    by_cases same : name = first
    · subst same
      have absent : (name, node) ∉ more := fun mem => apart (List.mem_map.2 ⟨_, mem, rfl⟩)
      simp [absent, eq_comm]
    · simp [beq_false_of_ne same, same, ih differ]

/-- The files that are listed are those that names lead to. -/
theorem mem_files_iff {node : FileNode} (proper : node.Proper) {way : List (List Char)}
    {bytes : List UInt8} :
    (way, bytes) ∈ node.files ↔ ∃ executable, node.get? way = some (.file bytes executable) := by
  induction way generalizing node with
  | nil =>
    cases node with
    | file content executable => simp [files, get?, eq_comm]
    | directory children => simp [files, get?, mem_filesOf_iff]
  | cons name more ih =>
    cases node with
    | file content executable => simp [files, get?, child?, children]
    | directory children =>
      obtain ⟨differ, all⟩ := proper
      rw [files, mem_filesOf_iff]
      constructor
      · rintro ⟨_, child, _, mem, inside, same⟩
        obtain ⟨rfl, rfl⟩ := List.cons.inj same
        have below := (properAll_iff.1 all _ mem).2
        obtain ⟨executable, found⟩ := (ih below).1 inside
        exact ⟨executable, by simp [get?, (lookup_eq_some_iff differ).2 mem, found]⟩
      · rintro ⟨executable, found⟩
        simp only [get?, child?_directory, Option.bind_eq_some_iff] at found
        obtain ⟨child, there, found⟩ := found
        have mem := (lookup_eq_some_iff differ).1 there
        exact ⟨name, child, more, mem, (ih (properAll_iff.1 all _ mem).2).2 ⟨executable, found⟩, rfl⟩

/-- The names that lead to a listed file are proper. -/
theorem isFileName_of_mem_files {node : FileNode} (proper : node.Proper) {way : List (List Char)}
    {bytes : List UInt8} (mem : (way, bytes) ∈ node.files) : ∀ name ∈ way, IsFileName name := by
  induction way generalizing node with
  | nil => simp
  | cons name more ih =>
    cases node with
    | file content executable => simp [files] at mem
    | directory children =>
      obtain ⟨_, child, _, inside, below, same⟩ := mem_filesOf_iff.1 mem
      obtain ⟨rfl, rfl⟩ := List.cons.inj same
      have entry := properAll_iff.1 proper.2 _ inside
      intro other inWay
      rcases List.mem_cons.1 inWay with rfl | inWay
      · exact entry.1
      · exact ih entry.2 below other inWay

/-- What names lead to in a proper tree is proper. -/
theorem Proper.get? {node below : FileNode} {place : List (List Char)} (proper : node.Proper)
    (found : node.get? place = some below) : below.Proper := by
  induction place generalizing node with
  | nil => exact Option.some.inj found ▸ proper
  | cons name more ih =>
    obtain ⟨child, there, inChild⟩ := Option.bind_eq_some_iff.1 found
    cases node with
    | file content executable => cases there
    | directory children =>
      have mem := (lookup_eq_some_iff proper.1).1 there
      exact ih (properAll_iff.1 proper.2 _ mem).2 inChild

/-! ### Names that nothing stands in the way of -/

/-- Names that lead to a file, or in some directory to nothing: no file stands where a directory would
have to, and no directory where a file would. -/
def Unobstructed : FileNode → List (List Char) → Prop
  | .file .., [] => True
  | .file .., _ :: _ => False
  | .directory _, [] => False
  | .directory children, name :: more =>
    match children.lookup name with
    | none => True
    | some child => child.Unobstructed more

/-- Names that nothing stands in the way of lead to a file, if they lead anywhere. -/
theorem Unobstructed.isFile {node below : FileNode} {way : List (List Char)} (free : node.Unobstructed way)
    (found : node.get? way = some below) : ∃ bytes executable, below = .file bytes executable := by
  induction way generalizing node with
  | nil =>
    cases node with
    | file bytes executable => exact ⟨bytes, executable, (Option.some.inj found).symm⟩
    | directory children => exact free.elim
  | cons name more ih =>
    cases node with
    | file bytes executable => exact free.elim
    | directory children =>
      obtain ⟨child, there, found⟩ := Option.bind_eq_some_iff.1 found
      rw [child?_directory] at there
      simp only [Unobstructed, there] at free
      exact ih free found

end FileNode

namespace FileSystem

open FileNode

/-! ### Following -/

/-- Names are followed one part of them after the other. -/
theorem follow_append (root : FileNode) (place a b : List (List Char)) :
    follow root place (a ++ b) = follow root place a >>= fun reached => follow root reached b := by
  induction a generalizing place with
  | nil => rfl
  | cons name a ih =>
    simp only [List.cons_append, follow]
    split
    · rfl
    · rfl
    · split
      · exact ih place
      · split
        · exact ih place.dropLast
        · split
          · rfl
          · split
            · exact ih (place ++ [name])
            · rfl

/-- Proper names that nothing stands in the way of are followed to where they lead. -/
theorem follow_of_unobstructed {root node : FileNode} {place way : List (List Char)}
    (there : root.get? place = some node) (proper : ∀ name ∈ way, IsFileName name)
    (free : node.Unobstructed way) :
    follow root place way = if (node.get? way).isSome then .ok (place ++ way) else .error .notFound := by
  induction way generalizing place node with
  | nil => simp [follow, FileNode.get?]
  | cons name more ih =>
    cases node with
    | file bytes executable => exact free.elim
    | directory children =>
      have name' := proper name (by simp)
      have step : root.get? (place ++ [name]) = children.lookup name := by
        rw [get?_append, there]
        cases next : children.lookup name <;> simp [FileNode.get?, next]
      have fits : ¬longestName < byteLength name := Nat.not_lt.2 name'.short
      cases next : children.lookup name with
      | none =>
        rw [next] at step
        simp [follow, there, name'.filled, name'.notHere, name'.notAbove, fits, step, FileNode.get?, next]
      | some child =>
        rw [next] at step
        simp only [Unobstructed, next] at free
        have rest := ih step (fun other mem => proper other (by simp [mem])) free
        simp [follow, there, name'.filled, name'.notHere, name'.notAbove, fits, step, rest,
          FileNode.get?, next]

theorem find_eq_ok_iff {fs : FileSystem} {p : Path} {node : FileNode} :
    fs.find p = .ok node ↔ ∃ place, fs.locate p = .ok place ∧ fs.root.get? place = some node := by
  unfold find
  cases fs.locate p with
  | error fault => simp
  | ok place => cases there : fs.root.get? place <;> simp [there]

/-- A path that leads somewhere is followed, whatever it looks like. -/
theorem locate_eq_ok_iff {fs : FileSystem} {p : Path} {place : List (List Char)} :
    fs.locate p = .ok place ↔ '\x00' ∉ p ∧ p ≠ [] ∧ byteLength p < tooLongPath ∧
      follow fs.root (if p.isAbsolute then [] else fs.current) (pieces '/' p) = .ok place := by
  unfold locate
  split_ifs with zero empty long <;> simp_all

/-- The names of a path below a directory are those of the directory and then its own. -/
theorem follow_join {root : FileNode} {start place : List (List Char)} {directory p : Path}
    (filled : directory ≠ []) (relative : p.isAbsolute = false)
    (reached : follow root start (pieces '/' directory) = .ok place) :
    follow root start (pieces '/' (directory.join p)) = follow root place (pieces '/' p) := by
  by_cases open' : ['/'].isSuffixOf directory
  · -- The empty name behind the last slash is passed over.
    obtain ⟨front, rfl⟩ := List.isSuffixOf_iff_suffix.1 open'
    have joined : Path.join (front ++ ['/']) p = front ++ '/' :: p := by
      simp [Path.join, relative]
    rw [pieces_append, follow_append] at reached
    obtain ⟨before, reachedFront, last⟩ := bind_eq_ok_iff.1 reached
    have same : before = place := by
      simp only [pieces, follow] at last
      split at last <;> simp_all
    rw [joined, pieces_append, follow_append, reachedFront, ok_bind, same]
  · rw [Path.join_of_relative relative filled (Bool.eq_false_iff.2 open'), pieces_append, follow_append,
      reached, ok_bind]

/-- A path below a directory leads to what its names lead to there, or to nothing. -/
theorem find_join {fs : FileSystem} {directory p : Path} {node : FileNode}
    (found : fs.find directory = .ok node) (proper : ∀ name ∈ pieces '/' p, IsFileName name)
    (short : byteLength (directory.join p) < tooLongPath) (free : node.Unobstructed (pieces '/' p)) :
    fs.find (directory.join p) = (match node.get? (pieces '/' p) with
      | some below => .ok below
      | none => .error .notFound) := by
  obtain ⟨place, located, there⟩ := find_eq_ok_iff.1 found
  obtain ⟨noZero, filled, -, reached⟩ := locate_eq_ok_iff.1 located
  have relative : p.isAbsolute = false := by
    cases p with
    | nil => rfl
    | cons c p =>
      refine Bool.eq_false_iff.2 fun absolute => ?_
      obtain rfl : '/' = c := by simpa [Path.isAbsolute] using absolute
      exact (proper [] (by simp [pieces])).filled rfl
  have whole : ∃ tail, directory.join p = directory ++ tail ∧ '\x00' ∉ tail := by
    have own : '\x00' ∉ p := fun mem => by
      rw [← join_pieces '/' p] at mem
      rcases mem_or_of_mem_join mem with slash | ⟨name, inPieces, inside⟩
      · simp at slash
      · exact (proper name inPieces).zero inside
    by_cases open' : ['/'].isSuffixOf directory
    · exact ⟨p, by simp [Path.join, relative, filled, open'], own⟩
    · exact ⟨'/' :: p, Path.join_of_relative relative filled (Bool.eq_false_iff.2 open'), by simpa using own⟩
  obtain ⟨tail, shape, tailZero⟩ := whole
  have absolute : (directory.join p).isAbsolute = directory.isAbsolute := by
    rw [shape]
    obtain ⟨c, rest, rfl⟩ := List.exists_cons_of_ne_nil filled
    simp [Path.isAbsolute, List.isPrefixOf]
  have followed := follow_of_unobstructed there proper free
  have followed' := (follow_join filled relative reached).trans followed
  have located' : fs.locate (directory.join p) =
      if (node.get? (pieces '/' p)).isSome then .ok (place ++ pieces '/' p) else .error .notFound := by
    have zero : '\x00' ∉ directory.join p := by rw [shape]; simp [noZero, tailZero]
    have nonempty : directory.join p ≠ [] := by rw [shape]; simp [filled]
    simp [locate, zero, nonempty, Nat.not_le.2 short, absolute, followed']
  have below : fs.root.get? (place ++ pieces '/' p) = node.get? (pieces '/' p) := by
    rw [get?_append, there]
    rfl
  cases found' : node.get? (pieces '/' p) with
  | none => simp [find, located', found']
  | some child => simp [find, located', found', below]

end FileSystem
end ApiSurface
