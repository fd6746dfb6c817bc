import ApiSurface.Proofs.Module.ReadBack
import ApiSurface.Proofs.SignatureFile.Lines
import ApiSurface.SignatureFile.Reader

/-!
Module blocks in a file. A block is gathered up to the end tag of the module, which must therefore stand
on its last line and nowhere before. Main statements: the lines of a module are lines
(`ModuleDescription.singleLine_of_mem_lines`), and the module is read back from them
(`readModule_lines`).
-/

namespace ApiSurface

open ApiSurface.Text

namespace ModuleDescription

/-- All texts that a module holds. -/
def texts (m : ModuleDescription) : List String :=
  [m.name] ++ m.version.toList ++ m.mainClass.toList ++ m.packages.toList ++ m.conceals.toList ++
    m.exports.toList.flatMap (fun e => e.1 :: e.2.toList) ++ m.requires.toList.map Requires.name ++
    m.provides.toList.flatMap (fun e => e.1 :: e.2.toList) ++ m.uses.toList

/-- The lines of the block. -/
def lines (m : ModuleDescription) : List (List Char) :=
  if m.isBare then [Markup.emptyTag "module" m.headAttributes]
  else [Markup.startTag "module" m.headAttributes] ++ m.bodyLines ++ [Markup.endTag "module"]

theorem join_lines (m : ModuleDescription) : join ['\n'] m.lines = m.toMarkup.toList := by
  rw [toMarkup, String.toList_ofList, lines]
  split
  · exact join_singleton ..
  · rfl

/-! ### One line each -/

theorem singleLine_escapeValue {cs : List Char} (h : SingleLine cs) : SingleLine (Markup.escapeValue cs) := by
  refine .flatMap fun c mem => ?_
  have one : SingleLine [c] := by simpa using h c mem
  unfold Markup.escapeValueChar
  split_ifs <;> first | exact one | simp

theorem singleLine_tag {name : String} {as : List (String × String)} {close : List Char}
    (named : SingleLine name.toList) (closes : SingleLine close)
    (each : ∀ a ∈ as, SingleLine a.1.toList ∧ SingleLine a.2.toList) :
    SingleLine (Markup.tag name as close) := by
  have attributes : SingleLine (as.flatMap fun a =>
      ' ' :: a.1.toList ++ '=' :: '"' :: Markup.escapeValue a.2.toList ++ ['"']) := by
    refine .flatMap fun a mem => ?_
    simp [(each a mem).1, singleLine_escapeValue (each a mem).2]
  simpa [Markup.tag, named, closes] using attributes

theorem singleLine_indented {depth : Nat} {tag : List Char} (h : SingleLine tag) :
    SingleLine (indented depth tag) := by
  have spaces : SingleLine (List.replicate (2 * depth) ' ') := by
    intro c mem
    obtain ⟨-, rfl⟩ := List.mem_replicate.1 mem
    decide
  simpa [indented, spaces] using h

theorem singleLine_of_mem_listing {name key inner innerKey : String}
    {entry : String × Ordered.Set String} (words : ∀ word ∈ [name, key, inner, innerKey],
      SingleLine word.toList) (texts : ∀ t ∈ entry.1 :: entry.2.toList, SingleLine t.toList)
    {line : List Char} (mem : line ∈ listing name key inner innerKey entry) : SingleLine line := by
  obtain ⟨value, set⟩ := entry
  have outer {close : List Char} (closes : SingleLine close) :
      SingleLine (Markup.tag name [(key, value)] close) :=
    singleLine_tag (words name (by simp)) closes fun a mem => by
      obtain rfl := List.mem_singleton.1 mem
      exact ⟨words key (by simp), texts value (by simp)⟩
  simp only [listing] at mem
  split at mem
  · obtain rfl := List.mem_singleton.1 mem
    exact singleLine_indented (outer (by simp))
  · simp only [List.cons_append, List.mem_cons, List.mem_append, List.mem_map, List.not_mem_nil,
      or_false] at mem
    rcases mem with rfl | ⟨t, inSet, rfl⟩ | rfl
    · exact singleLine_indented (outer (by simp))
    · refine singleLine_indented (singleLine_tag (words inner (by simp)) (by simp) fun a mem => ?_)
      obtain rfl := List.mem_singleton.1 mem
      exact ⟨words innerKey (by simp), texts t (by simp [inSet])⟩
    · refine singleLine_indented ?_
      have word := words name (by simp)
      simp [Markup.endTag, word]

theorem singleLine_headTag {m : ModuleDescription} (h : ∀ t ∈ m.texts, SingleLine t.toList) {close : List Char}
    (closes : SingleLine close) : SingleLine (Markup.tag "module" m.headAttributes close) := by
  refine singleLine_tag (by simp) closes fun a mem => ?_
  simp only [headAttributes, List.mem_append, List.mem_singleton, Option.mem_toList,
    Option.map_eq_some_iff] at mem
  rcases mem with (rfl | ⟨v, found, rfl⟩) | ⟨c, found, rfl⟩
  · exact ⟨by simp, h _ (by simp [texts])⟩
  · exact ⟨by simp, h _ (by simp [texts, found])⟩
  · exact ⟨by simp, h _ (by simp [texts, found])⟩

theorem singleLine_requires {r : Requires} (named : SingleLine r.name.toList) :
    SingleLine (indented 1 (Markup.emptyTag "requires" [("name", r.name), ("mandated", flag r.mandated),
      ("public", flag r.transitive), ("synthetic", flag r.synthetic)])) := by
  have flags (b : Bool) : SingleLine (flag b).toList := by cases b <;> simp [flag]
  refine singleLine_indented (singleLine_tag (by simp) (by simp) fun a mem => ?_)
  simp only [List.mem_cons, List.not_mem_nil, or_false] at mem
  rcases mem with rfl | rfl | rfl | rfl
  · exact ⟨by simp, named⟩
  · exact ⟨by simp, flags _⟩
  · exact ⟨by simp, flags _⟩
  · exact ⟨by simp, flags _⟩

theorem singleLine_of_mem_bodyLines {m : ModuleDescription} (h : ∀ t ∈ m.texts, SingleLine t.toList)
    {line : List Char} (mem : line ∈ m.bodyLines) : SingleLine line := by
  have one {name key value : String} (named : SingleLine name.toList) (keyed : SingleLine key.toList)
      (single : SingleLine value.toList) : SingleLine (indented 1 (Markup.emptyTag name [(key, value)])) :=
    singleLine_indented (singleLine_tag named (by simp) (List.forall_mem_singleton.2 ⟨keyed, single⟩))
  simp only [bodyLines, List.mem_append, List.mem_map, List.mem_flatMap] at mem
  rcases mem with ((((⟨p, inList, rfl⟩ | ⟨p, inList, rfl⟩) | ⟨e, inList, mem⟩) | ⟨r, inList, rfl⟩) |
    ⟨e, inList, mem⟩) | ⟨u, inList, rfl⟩
  · exact one (by simp) (by simp) (h p (by simp [texts, inList]))
  · exact one (by simp) (by simp) (h p (by simp [texts, inList]))
  · refine singleLine_of_mem_listing (by simp) (fun t inEntry => h t ?_) mem
    simp only [texts, List.mem_append, List.mem_flatMap]
    exact .inl (.inl (.inl (.inr ⟨e, inList, inEntry⟩)))
  · refine singleLine_requires (h r.name ?_)
    simp only [texts, List.mem_append, List.mem_map]
    exact .inl (.inl (.inr ⟨r, inList, rfl⟩))
  · refine singleLine_of_mem_listing (by simp) (fun t inEntry => h t ?_) mem
    simp only [texts, List.mem_append, List.mem_flatMap]
    exact .inl (.inr ⟨e, inList, inEntry⟩)
  · exact one (by simp) (by simp) (h u (by simp [texts, inList]))

/-- The lines of a module whose texts stay on one line. -/
theorem singleLine_of_mem_lines {m : ModuleDescription} (h : ∀ t ∈ m.texts, SingleLine t.toList)
    {line : List Char} (mem : line ∈ m.lines) : SingleLine line := by
  rw [lines] at mem
  split at mem
  · obtain rfl := List.mem_singleton.1 mem
    exact singleLine_headTag h (by simp)
  · simp only [List.mem_append, List.mem_singleton] at mem
    rcases mem with (rfl | mem) | rfl
    · exact singleLine_headTag h (by simp)
    · exact singleLine_of_mem_bodyLines h mem
    · simp [Markup.endTag]

/-! ### The end of the block -/

open SignatureFile

/-- A line with one angle bracket holds the end tag only behind that bracket. -/
theorem occurs_moduleEnd_iff {lead rest : List Char} (noLead : '<' ∉ lead) (noRest : '<' ∉ rest) :
    occurs moduleEnd (lead ++ '<' :: rest) ↔ "/module>".toList <+: rest := by
  have mark : moduleEnd = '<' :: "/module>".toList := by decide
  rw [occurs_iff]
  constructor
  · rintro ⟨before, after, whole⟩
    rw [mark, List.append_assoc] at whole
    have none : '<' ∉ before := by
      intro mem
      have more : 2 ≤ (lead ++ '<' :: rest).count '<' := by
        rw [← whole]
        have first := List.one_le_count_iff.2 mem
        simp only [List.count_append, List.cons_append, List.count_cons_self]
        omega
      simp [List.count_eq_zero.2 noLead, List.count_eq_zero.2 noRest] at more
    have here := @cutAt?_singleton _ _ ("/module>".toList ++ after) none
    rw [← List.cons_append, whole, cutAt?_singleton noLead] at here
    obtain ⟨-, rfl⟩ := Prod.ext_iff.1 (Option.some.inj here)
    exact ⟨after, rfl⟩
  · rintro ⟨after, rfl⟩
    exact ⟨lead, after, by simp [mark]⟩

theorem notMem_attributesText {as : List (String × String)}
    (plain : ∀ a ∈ as, Markup.PlainName a.1.toList) : '<' ∉ Markup.attributesText as := by
  intro mem
  obtain ⟨a, inList, inside⟩ := List.mem_flatMap.1 mem
  have noKey : '<' ∉ a.1.toList := fun inKey => ((plain a inList).2 '<' inKey).2 (by simp)
  have noValue := Markup.notMem_escapeValue (c := '<') (by simp) a.2.toList
  simp [noKey, noValue] at inside

/-- A tag that opens an element is no end tag of a module, nor is one in its values. -/
theorem occurs_moduleEnd_tag {depth : Nat} {name : String} {as : List (String × String)} {close : List Char}
    (plain : Markup.PlainTag name as) (closes : '<' ∉ close) :
    occurs moduleEnd (indented depth (Markup.tag name as close)) = false := by
  have shape : indented depth (Markup.tag name as close) = List.replicate (2 * depth) ' ' ++
      '<' :: (name.toList ++ Markup.attributesText as ++ close ++ ['>']) := by
    simp [indented, Markup.tag, Markup.attributesText]
  have noName : '<' ∉ name.toList := fun mem => (plain.name.2 '<' mem).2 (by simp)
  have rest : '<' ∉ name.toList ++ Markup.attributesText as ++ close ++ ['>'] := by
    simp [noName, notMem_attributesText plain.keys, closes]
  rw [← Bool.not_eq_true, shape, occurs_moduleEnd_iff (by simp) rest]
  -- a name does not begin with the slash of an end tag
  rintro ⟨after, whole⟩
  cases chars : name.toList with
  | nil => exact plain.name.1 chars
  | cons c more =>
    rw [chars] at whole
    have first : c = '/' := by simpa using (congrArg List.head? whole).symm
    exact (plain.name.2 c (by simp [chars])).2 (by simp [first])

theorem occurs_moduleEnd_listing {name key inner innerKey : String}
    {entry : String × Ordered.Set String} (named : Markup.PlainName name.toList)
    (keyed : Markup.PlainName key.toList) (innerNamed : Markup.PlainName inner.toList)
    (innerKeyed : Markup.PlainName innerKey.toList)
    (other : occurs moduleEnd (indented 1 (Markup.endTag name)) = false) {line : List Char}
    (mem : line ∈ listing name key inner innerKey entry) : occurs moduleEnd line = false := by
  obtain ⟨value, set⟩ := entry
  have outer : Markup.PlainTag name [(key, value)] := ⟨named, by simpa using keyed, by simp⟩
  simp only [listing] at mem
  split at mem
  · obtain rfl := List.mem_singleton.1 mem
    exact occurs_moduleEnd_tag outer (by simp)
  · simp only [List.cons_append, List.mem_cons, List.mem_append, List.mem_map, List.not_mem_nil,
      or_false] at mem
    rcases mem with rfl | ⟨t, -, rfl⟩ | rfl
    · exact occurs_moduleEnd_tag outer (by simp)
    · exact occurs_moduleEnd_tag ⟨innerNamed, by simpa using innerKeyed, by simp⟩ (by simp)
    · exact other

/-- The end tag of the module is not before the last line. -/
theorem occurs_moduleEnd_bodyLines {m : ModuleDescription} {line : List Char} (mem : line ∈ m.bodyLines) :
    occurs moduleEnd line = false := by
  have one {name key : String} (value : String) (named : Markup.PlainName name.toList)
      (keyed : Markup.PlainName key.toList) :
      occurs moduleEnd (indented 1 (Markup.emptyTag name [(key, value)])) = false :=
    occurs_moduleEnd_tag ⟨named, by simpa using keyed, by simp⟩ (by simp)
  simp only [bodyLines, List.mem_append, List.mem_map, List.mem_flatMap] at mem
  rcases mem with ((((⟨p, -, rfl⟩ | ⟨p, -, rfl⟩) | ⟨e, -, mem⟩) | ⟨r, -, rfl⟩) | ⟨e, -, mem⟩) |
    ⟨u, -, rfl⟩
  · exact one p (by decide) (by decide)
  · exact one p (by decide) (by decide)
  · exact occurs_moduleEnd_listing (by decide) (by decide) (by decide) (by decide) (by decide) mem
  · exact occurs_moduleEnd_tag (requires_plain r) (by simp)
  · exact occurs_moduleEnd_listing (by decide) (by decide) (by decide) (by decide) (by decide) mem
  · exact one u (by decide) (by decide)

theorem isWholeModule_emptyTag (name : String) (as : List (String × String)) :
    isWholeModule (Markup.emptyTag name as) = true := by
  have bracket : isBlank '>' = false := by decide
  have shape : Markup.emptyTag name as =
      ('<' :: (name.toList ++ Markup.attributesText as)) ++ "/>".toList := by
    simp [Markup.emptyTag_eq]
  have trimmed : trimEnd (Markup.emptyTag name as) = Markup.emptyTag name as := by
    rw [Markup.emptyTag_eq, ← List.cons_append, trimEnd_concat bracket]
  rw [isWholeModule, trimmed, shape, beforeTail?_append]
  simp

theorem isWholeModule_startTag {name : String} {as : List (String × String)}
    (plain : Markup.PlainTag name as) (filled : as ≠ []) :
    isWholeModule (Markup.startTag name as) = false := by
  have bracket : isBlank '>' = false := by decide
  have noEnd : occurs moduleEnd (Markup.startTag name as) = false :=
    @occurs_moduleEnd_tag 0 _ _ _ plain (by simp)
  have trimmed : trimEnd (Markup.startTag name as) = Markup.startTag name as := by
    rw [Markup.startTag_eq, ← List.cons_append, trimEnd_concat bracket]
  have notEmpty : beforeTail? "/>".toList (Markup.startTag name as) = none := by
    rcases List.eq_nil_or_concat' as with none | ⟨others, a, rfl⟩
    · exact absurd none filled
    -- the tag ends with the quote of its last value and the bracket
    refine Option.eq_none_iff_forall_ne_some.2 fun front found => ?_
    have whole := beforeTail?_eq_some_iff.1 found
    have shape : Markup.startTag name (others ++ [a]) =
        ('<' :: (name.toList ++ Markup.attributesText others ++
          (' ' :: a.1.toList ++ '=' :: '"' :: Markup.escapeValue a.2.toList))) ++ ['"', '>'] := by
      simp [Markup.startTag_eq, Markup.attributesText]
    rw [shape] at whole
    have ends := (List.append_inj' whole (by simp)).2
    simp at ends
  rw [isWholeModule, noEnd, trimmed, notEmpty]
  rfl

end ModuleDescription

namespace SignatureFile

/-- Lines up to the end tag are gathered into one text. -/
theorem gatherModule_append {inner : List (List Char)} {last : List Char}
    (before : ∀ line ∈ inner, occurs moduleEnd line = false) (ends : occurs moduleEnd last = true)
    (first n : Nat) (text : List Char) (rest : List SourceLine) :
    gatherModule first text (numbered n (inner ++ [last]) ++ rest) =
      (.ok (text ++ (inner ++ [last]).flatMap fun line => '\n' :: line), rest) := by
  induction inner generalizing n text with
  | nil => simp [gatherModule, ends]
  | cons line inner ih =>
    have no := before line (by simp)
    simp only [List.cons_append, numbered_cons, gatherModule, no, Bool.false_eq_true, if_false]
    rw [ih fun l mem => before l (by simp [mem])]
    simp

theorem kind_of_moduleLead {cs : List Char} (lead : moduleLead <+: cs) : LineKind.of cs = .moduleBlock := by
  rw [LineKind.of, if_pos (List.isPrefixOf_iff_prefix.2 lead)]

theorem allBlank_of_moduleLead {cs : List Char} (lead : moduleLead <+: cs) : allBlank cs = false := by
  obtain ⟨rest, rfl⟩ := lead
  rfl

/-- A module is read back from the lines of its block, whatever follows them. -/
theorem readModule_lines (m : ModuleDescription) (n : Nat) (rest : List SourceLine) :
    ∃ first more, m.lines = first :: more ∧ moduleLead <+: first ∧
      readModule n first (numbered (n + 1) more ++ rest) = (.ok m, rest) := by
  have read {text : List Char} (same : text = join ['\n'] m.lines) :
      ModuleDescription.ofMarkup (String.ofList text) = .ok m := by
    rw [same, m.join_lines, String.ofList_toList, m.ofMarkup_toMarkup]
  have lead (close : List Char) : moduleLead <+: Markup.tag "module" m.headAttributes close := by
    have word : moduleLead = '<' :: "module".toList := by decide
    rw [word, Markup.tag, List.append_assoc]
    exact List.prefix_append _ _
  by_cases bare : m.isBare
  · have shape : m.lines = [Markup.emptyTag "module" m.headAttributes] := by
      rw [ModuleDescription.lines, if_pos bare]
    have whole := ModuleDescription.isWholeModule_emptyTag "module" m.headAttributes
    refine ⟨_, [], shape, lead _, ?_⟩
    simp only [readModule, whole, if_true, read (by rw [shape, join_singleton]), numbered_nil,
      List.nil_append]
  · have shape : m.lines = Markup.startTag "module" m.headAttributes ::
        (m.bodyLines ++ [Markup.endTag "module"]) := by
      rw [ModuleDescription.lines, if_neg bare]
      simp
    have part : isWholeModule (Markup.startTag "module" m.headAttributes) = false :=
      ModuleDescription.isWholeModule_startTag m.headAttributes_plain
        (by simp [ModuleDescription.headAttributes])
    have gathered := @gatherModule_append m.bodyLines (Markup.endTag "module")
      (fun line mem => ModuleDescription.occurs_moduleEnd_bodyLines (m := m) mem) (by decide)
      n (n + 1) (Markup.startTag "module" m.headAttributes) rest
    refine ⟨_, _, shape, lead _, ?_⟩
    simp only [readModule, part, Bool.false_eq_true, if_false, gathered,
      read (by rw [shape, join_eq_append_flatMap])]

end SignatureFile
end ApiSurface
