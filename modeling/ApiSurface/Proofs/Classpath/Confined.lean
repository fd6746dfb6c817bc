import ApiSurface.Proofs.Classpath.Lookup
import ApiSurface.Proofs.JavaType.Render

/-!
How far the look-up of a class reaches. The path that is opened for a class is that of the directory with the parts
of the name behind it, unless the name begins with a dot: then its path is absolute and the directory does not count.
Main statement: for every other name a directory is not left, so that what is found is below the directory and does
not depend on anything outside of it (`ClassDirectory.lookup_confined`).
-/

namespace ApiSurface

open ApiSurface.Text

/-! ### Names on paths -/

/-- The names of which a path consists. Two slashes in a row are as good as one. -/
def Path.names (p : Path) : List (List Char) := (pieces '/' p).filter (!·.isEmpty)

theorem Path.names_append_cons (a b : Path) : names (a ++ '/' :: b) = names a ++ names b := by
  rw [names, pieces_append, List.filter_append, names, names]

/-- What is not absolute stands behind the directory, with a slash between them if there is none. -/
theorem Path.exists_join_eq {p : Path} (relative : p.isAbsolute = false) (directory : Path) :
    ∃ gap, (gap = [] ∨ gap = ['/']) ∧ directory.join p = directory ++ gap ++ p ∧
      names (directory.join p) = names directory ++ names p := by
  by_cases empty : directory = []
  · subst empty
    exact ⟨[], .inl rfl, by simp [join], by simp [join, names, pieces]⟩
  by_cases open' : ['/'].isSuffixOf directory
  · obtain ⟨front, rfl⟩ := List.isSuffixOf_iff_suffix.1 open'
    have joined : Path.join (front ++ ['/']) p = front ++ '/' :: p := by simp [join, relative]
    have whole : names (front ++ ['/']) = names front := by simpa [names, pieces] using names_append_cons front []
    exact ⟨[], .inl rfl, by simpa using joined, by rw [joined, names_append_cons, whole]⟩
  · have joined := join_of_relative relative empty (Bool.eq_false_iff.2 open')
    exact ⟨['/'], .inr rfl, by simpa using joined, by rw [joined, names_append_cons]⟩

/-! ### Parts of names -/

/-- The names on the way from a directory to the file of a class: the parts of its name between dots, the last one
with what class files end in. There is no part between two dots in a row. -/
def wayOf (name : String) : List (List Char) :=
  (pieces '.' name.toList).dropLast.filter (!·.isEmpty) ++ [lastPiece '.' name.toList ++ classSuffix]

variable {name : String}

/-- The parts of a name are those in front of the last one and the last one. -/
theorem pieces_eq_concat (separator : Char) (cs : List Char) :
    pieces separator cs = (pieces separator cs).dropLast ++ [lastPiece separator cs] := by
  have last : (pieces separator cs).getLast? = some ((pieces separator cs).getLast (pieces_ne_nil _ _)) :=
    List.getLast?_eq_getLast_of_ne_nil _
  rw [lastPiece, last, Option.getD_some, List.dropLast_append_getLast]

/-- The path of a class holds the parts of its name. -/
theorem classWay_eq (slash : '/' ∉ name.toList) :
    classWay name = (pieces '.' name.toList).dropLast ++ [lastPiece '.' name.toList ++ classSuffix] := by
  have free {p : List Char} (mem : p ∈ pieces '.' name.toList) : '/' ∉ p := fun inside =>
    slash ((mem_of_mem_pieces mem).2 _ inside)
  have parts := pieces_eq_concat '.' name.toList
  have path : classPath name =
      join ['/'] ((pieces '.' name.toList).dropLast ++ [lastPiece '.' name.toList ++ classSuffix]) := by
    have dotted : replaceChar '.' '/' name.toList = join ['/'] (pieces '.' name.toList) := by
      conv_lhs => rw [← join_pieces '.' name.toList]
      exact replaceChar_join fun p mem => (mem_of_mem_pieces mem).1
    rw [classPath, dotted, join_concat_append, ← parts]
  rw [classWay, path, pieces_join (by simp)]
  intro p mem
  rcases List.mem_append.1 mem with mem | mem
  · exact free (List.mem_of_mem_dropLast mem)
  · rw [List.mem_singleton.1 mem]
    have last : '/' ∉ lastPiece '.' name.toList := free (by rw [parts]; simp)
    simpa [classSuffix] using last

theorem names_classPath (slash : '/' ∉ name.toList) : Path.names (classPath name) = wayOf name := by
  have filled : (lastPiece '.' name.toList ++ classSuffix).isEmpty = false := by simp [classSuffix]
  have way : pieces '/' (classPath name) = _ := classWay_eq slash
  rw [Path.names, way, List.filter_append, wayOf]
  simp [filled]

/-- No part of a name leads upwards or nowhere. -/
theorem plain_of_mem_classWay (slash : '/' ∉ name.toList) {part : List Char} (mem : part ∈ classWay name) :
    part ≠ ['.'] ∧ part ≠ ['.', '.'] := by
  rw [classWay_eq slash] at mem
  rcases List.mem_append.1 mem with mem | mem
  · have free := (mem_of_mem_pieces (List.mem_of_mem_dropLast mem)).1
    exact ⟨fun same => free (by simp [same]), fun same => free (by simp [same])⟩
  · rw [List.mem_singleton.1 mem]
    have long : ∀ cs : List Char, 5 < (cs ++ classSuffix).length := by
      intro cs
      simp [classSuffix]
    constructor <;>
    · intro same
      have := long (lastPiece '.' name.toList)
      rw [same] at this
      simp at this

/-- The path of a class is absolute exactly if its name begins with a dot, or with a slash. -/
theorem isAbsolute_classPath (slash : '/' ∉ name.toList) :
    (classPath name).isAbsolute = true ↔ name.toList.head? = some '.' := by
  unfold classPath
  cases cs : name.toList with
  | nil => simp [Path.isAbsolute, replaceChar, classSuffix, List.isPrefixOf]
  | cons c cs =>
    rw [cs] at slash
    have differ : c ≠ '/' := fun same => slash (by simp [same])
    by_cases dot : c = '.'
    · simp [Path.isAbsolute, replaceChar, List.isPrefixOf, dot]
    · simp [Path.isAbsolute, replaceChar, List.isPrefixOf, dot, Ne.symm differ]

/-! ### Below a directory -/

namespace FileSystem

open FileNode

/-- From a place on, names that do not lead upwards are followed in what is there. -/
theorem follow_below {root node : FileNode} {place : List (List Char)} (there : root.get? place = some node)
    {way : List (List Char)} (down : ∀ name ∈ way, name ≠ ['.', '.']) (inside : List (List Char)) :
    follow root (place ++ inside) way = (follow node inside way).map (place ++ ·) := by
  induction way generalizing inside with
  | nil => rfl
  | cons name more ih =>
    have rest := ih fun other mem => down other (by simp [mem])
    have same (q : List (List Char)) : root.get? (place ++ q) = node.get? q := by
      rw [get?_append, there, Option.bind_some]
    have notUp := down name (by simp)
    have next : follow root (place ++ inside ++ [name]) more = (follow node (inside ++ [name]) more).map (place ++ ·) := by
      rw [List.append_assoc]
      exact rest (inside ++ [name])
    have known : root.get? (place ++ inside ++ [name]) = node.get? (inside ++ [name]) := by
      rw [List.append_assoc, same]
    simp only [follow, same, known, notUp, if_false]
    split
    · rfl
    · rfl
    · split_ifs
      · exact rest inside
      · rfl
      · exact next
      · rfl

/-- Names that lead nowhere else are the way that is followed, apart from empty ones. -/
theorem eq_of_follow {root : FileNode} {start place way : List (List Char)}
    (plain : ∀ name ∈ way, name ≠ ['.'] ∧ name ≠ ['.', '.']) (reached : follow root start way = .ok place) :
    place = start ++ way.filter (!·.isEmpty) := by
  induction way generalizing start with
  | nil => simpa [follow] using reached.symm
  | cons name more ih =>
    have rest {start : List (List Char)} (reached : follow root start more = .ok place) :
        place = start ++ more.filter (!·.isEmpty) := ih (fun other mem => plain other (by simp [mem])) reached
    obtain ⟨notHere, notUp⟩ := plain name (by simp)
    simp only [follow, notHere, notUp, or_false, if_false] at reached
    split at reached
    · cases reached
    · cases reached
    · split_ifs at reached with empty
      · simpa [empty] using rest reached
      · simpa [empty] using rest reached

/-- What a path below a directory leads to is told by what is in the directory. -/
theorem find_join_below {fs : FileSystem} {directory p : Path} {node : FileNode}
    (found : fs.find directory = .ok node) (relative : p.isAbsolute = false)
    (down : ∀ name ∈ pieces '/' p, name ≠ ['.', '.']) :
    fs.find (directory.join p) =
      if '\x00' ∈ p then .error .zeroCharacter
      else if tooLongPath ≤ byteLength (directory.join p) then .error .nameTooLong
      else (follow node [] (pieces '/' p)).bind fun way =>
        match node.get? way with
        | some below => .ok below
        | none => .error .notFound := by
  obtain ⟨place, located, there⟩ := find_eq_ok_iff.1 found
  obtain ⟨noZero, filled, -, reached⟩ := locate_eq_ok_iff.1 located
  obtain ⟨gap, slash, joined, -⟩ := Path.exists_join_eq relative directory
  have noGap : '\x00' ∉ gap := by rcases slash with rfl | rfl <;> simp
  have zero : '\x00' ∈ directory.join p ↔ '\x00' ∈ p := by simp [joined, noZero, noGap]
  have nonempty : directory.join p ≠ [] := by simp [joined, filled]
  have absolute : (directory.join p).isAbsolute = directory.isAbsolute := by
    obtain ⟨c, rest, rfl⟩ := List.exists_cons_of_ne_nil filled
    simp [joined, Path.isAbsolute, List.isPrefixOf]
  have followed : follow fs.root (if directory.isAbsolute then [] else fs.current) (pieces '/' (directory.join p)) =
      (follow node [] (pieces '/' p)).map (place ++ ·) := by
    rw [follow_join filled relative reached]
    simpa using follow_below there down []
  have same (q : List (List Char)) : fs.root.get? (place ++ q) = node.get? q := by
    rw [get?_append, there, Option.bind_some]
  unfold find locate
  simp only [List.contains_iff_mem, zero, List.isEmpty_iff, nonempty, absolute, followed, if_false]
  split_ifs
  · rfl
  · rfl
  · cases follow node [] (pieces '/' p) with
    | error fault => rfl
    | ok way => simp only [map_ok, same]; rfl

end FileSystem

namespace ClassDirectory

variable {fs : FileSystem} {root : Path}

/-- The path of a class whose name begins with a dot is the same for all directories. -/
theorem join_classPath_of_dot (dot : name.toList.head? = some '.') (root : Path) :
    root.join (classPath name) = classPath name := by
  obtain ⟨cs, shape⟩ := List.head?_eq_some_iff.1 dot
  have absolute : (classPath name).isAbsolute = true := by
    simp [classPath, shape, Path.isAbsolute, replaceChar, List.isPrefixOf]
  simp [Path.join, absolute]

/-- What is found for a class is a file on its way from the directory. -/
theorem exists_of_find_join (slash : '/' ∉ name.toList) (relative : (classPath name).isAbsolute = false)
    {node below : FileNode} (found : fs.find root = .ok node)
    (leads : fs.find (root.join (classPath name)) = .ok below) : node.get? (wayOf name) = some below := by
  have plain : ∀ part ∈ pieces '/' (classPath name), part ≠ ['.'] ∧ part ≠ ['.', '.'] := fun part mem =>
    plain_of_mem_classWay slash mem
  rw [FileSystem.find_join_below found relative fun part mem => (plain part mem).2] at leads
  split_ifs at leads
  obtain ⟨way, reached, last⟩ := bind_eq_ok_iff.1 leads
  have same : way = wayOf name := by
    have names := FileSystem.eq_of_follow plain reached
    rw [List.nil_append] at names
    rw [names, ← names_classPath slash, Path.names]
  rw [← same]
  split at last
  · cases last
    assumption
  · cases last

/-- **Look-ups stay below their directory.** Unless the name of a class begins with a dot, the path that is opened
for it is that of the directory and behind it the parts of the name. What is found lies on that way from the
directory, and is the same in any file system in which the directory holds the same. -/
theorem lookup_confined (root : Path) (slash : '/' ∉ name.toList) (noDot : name.toList.head? ≠ some '.') :
    (∃ gap, (gap = [] ∨ gap = ['/']) ∧ root.join (classPath name) = root ++ gap ++ classPath name) ∧
      Path.names (root.join (classPath name)) = Path.names root ++ wayOf name ∧
      ['.', '.'] ∉ wayOf name ∧
      ∀ fs node, fs.find root = .ok node →
        (∀ found, find fs root name = .ok found →
          ∃ bytes executable, node.get? (wayOf name) = some (.file bytes executable) ∧ found = .bytecode bytes) ∧
        (contains fs root name = true →
          ∃ bytes executable, node.get? (wayOf name) = some (.file bytes executable)) ∧
        ∀ other : FileSystem, other.find root = .ok node →
          find other root name = find fs root name ∧ contains other root name = contains fs root name := by
  have relative : (classPath name).isAbsolute = false :=
    Bool.eq_false_iff.2 fun absolute => noDot ((isAbsolute_classPath slash).1 absolute)
  obtain ⟨gap, between, joined, names⟩ := Path.exists_join_eq relative root
  rw [names_classPath slash] at names
  refine ⟨⟨gap, between, joined⟩, names, fun mem => ?_, fun fs node there => ⟨fun found leads => ?_, fun known => ?_,
    fun other there' => ?_⟩⟩
  · rw [← names_classPath slash] at mem
    exact (plain_of_mem_classWay slash (List.mem_of_mem_filter mem)).2 rfl
  · obtain ⟨bytes, read, rfl⟩ := find_eq_ok_iff.1 leads
    unfold FileSystem.read at read
    split at read <;> cases read
    exact ⟨bytes, _, exists_of_find_join slash relative there ‹_›, rfl⟩
  · unfold contains FileSystem.isFile at known
    split at known
    · exact ⟨_, _, exists_of_find_join slash relative there ‹_›⟩
    · cases known
  · have down : ∀ part ∈ pieces '/' (classPath name), part ≠ ['.', '.'] := fun part mem =>
      (plain_of_mem_classWay slash mem).2
    have same : other.find (root.join (classPath name)) = fs.find (root.join (classPath name)) := by
      rw [FileSystem.find_join_below there' relative down, FileSystem.find_join_below there relative down]
    simp only [find, contains, FileSystem.read, FileSystem.isFile, same, and_self]

/-- A directory with a package whose name begins with a dot and one without the dot, and outside of the directory
a package of that name as well. -/
def hiddenPackage : FileSystem :=
  let package (byte : UInt8) : FileNode := .directory [("X.class".toList, .file [byte] false)]
  ⟨.directory [("d".toList, .directory [(".git".toList, package 1), ("git".toList, package 2)]),
    ("git".toList, package 3)], [], []⟩

/-- Two dots in a row and one at the end: the file is looked for below the directory, where there is none. -/
theorem lookup_confined_doubledDot :
    '/' ∉ "git..X.".toList ∧ "git..X.".toList.head? ≠ some '.' ∧
      Path.join "d".toList (classPath "git..X.") = "d/git//X/.class".toList ∧
      wayOf "git..X." = ["git".toList, "X".toList, ".class".toList] ∧
      contains hiddenPackage "d".toList "git..X." = false ∧
      ['.', '.'] ∉ wayOf "git..X." := by
  have slash : '/' ∉ "git..X.".toList := by decide
  have noDot : "git..X.".toList.head? ≠ some '.' := by decide
  obtain ⟨-, -, noUp, below⟩ := lookup_confined "d".toList slash noDot
  obtain ⟨node, there, absent⟩ : ∃ node, hiddenPackage.find "d".toList = .ok node ∧
      node.get? (wayOf "git..X.") = none := ⟨_, rfl, by decide⟩
  refine ⟨slash, noDot, by decide, by decide, Bool.eq_false_iff.2 fun known => ?_, noUp⟩
  obtain ⟨bytes, executable, found⟩ := (below hiddenPackage node there).2.1 known
  rw [absent] at found
  cases found

/-- The name of a class in a package whose name begins with a dot is given out, and looked up outside of the
directory. -/
theorem lookup_not_confined :
    (∃ listed, names hiddenPackage "d".toList = .ok listed ∧ ".git.X" ∈ listed) ∧
      Path.join "d".toList (classPath ".git.X") = "/git/X.class".toList ∧
      find hiddenPackage "d".toList ".git.X" = .ok (.bytecode [3]) ∧
      (hiddenPackage.find "d".toList).map (fun node => (node.get? (wayOf ".git.X")).map FileNode.files) =
        .ok (some [([], [2])]) := by
  refine ⟨⟨_, rfl, List.mem_mergeSort.2 (by decide)⟩, join_classPath_of_dot (by decide) _, rfl, by decide +kernel⟩

end ClassDirectory

end ApiSurface
