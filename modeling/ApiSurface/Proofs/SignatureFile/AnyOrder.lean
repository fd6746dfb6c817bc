import ApiSurface.Proofs.Canonical
import ApiSurface.Proofs.SignatureFile.Accepted

/-!
What is written of classes that differ in the order of members and annotations only, and in empty lists of
hidden names. In every format and with any features left out they have the same lines, or both have none
(`classLines_anyOrder`); so a class in canonical form is written like the class itself.
-/

namespace ApiSurface

open ApiSurface.Text ApiSurface.Line

namespace ClassDescription

variable {c d : ClassDescription}

/-- Members with the same faces are declared alike. -/
theorem perm_declared (same : c.SameUpToOrder d) (kind : MemberKind) :
    ((c.declared kind).map Member.face).Perm ((d.declared kind).map Member.face) := by
  have face (e : ClassDescription) : (e.declared kind).map Member.face =
      ((e.members kind).map Member.face).filter fun f =>
        f.1 == e.name && Member.isDirect ⟨"", "", .none, [], f.2.2.2.1⟩ := by
    rw [declared, List.filter_map]
    rfl
  rw [face, face, same.name]
  exact (same.members kind).filter _

theorem isNone_superclass (same : c.SameUpToOrder d) : c.superclass.isNone = d.superclass.isNone := by
  have size := (same.members .superclass).length_eq
  cases left : c.superclass <;> cases right : d.superclass <;> simp [members, left, right] at size ⊢

/-- In canonical form a class is the same up to order and to empty lists. -/
theorem sameUpToOrder_canonicalize (c : ClassDescription) :
    c.canonicalize.withoutEmpty.SameUpToOrder c.withoutEmpty := by
  have twice (names : Option (Ordered.Set String)) : nonempty? (nonempty? names) = nonempty? names := by
    simp [nonempty?]
  have members (kind : MemberKind) : c.canonicalize.withoutEmpty.members kind = sortMembers (c.members kind) :=
    members_canonicalize c kind
  rw [canonicalize_eq] at members ⊢
  refine ⟨rfl, rfl, rfl, fun kind => ?_, sortAnnotations_perm c.annotations, twice _, twice _, rfl⟩
  rw [members]
  refine ((List.mergeSort_perm _ _).map Member.face).trans ?_
  have faces : ((c.members kind).map Member.arrange).map Member.face = (c.members kind).map Member.face := by
    simp [Function.comp_def]
  exact faces ▸ .refl _

end ClassDescription

namespace Writer

open ClassDescription

variable {w : Writer} {c d : ClassDescription}

/-- Nothing but its face counts for the block of a member. -/
theorem memberBlock_of_face {scope : Erasure} {m n : Member} (name : c.name = d.name) (same : m.face = n.face) :
    w.memberBlock c scope m = w.memberBlock d scope n := by
  simp only [Member.face, Prod.mk.injEq] at same
  obtain ⟨-, called, set, detail, uses⟩ := same
  have lines : formatMember w.style scope c.name m = formatMember w.style scope d.name n := by
    simp only [formatMember, detailTokens, Member.kind, name, called, set, detail]
  rw [memberBlock, memberBlock, lines, name, annotationLines_congr (Multiset.coe_eq_coe.1 uses)]

/-- Members with the same faces have the same lines, if they have any. -/
theorem kindLines_congr (same : c.SameUpToOrder d) {scope : Erasure} {kind : MemberKind} {lines : List String}
    (h : w.kindLines c scope kind = .ok lines) : w.kindLines d scope kind = .ok lines := by
  rw [kindLines] at h ⊢
  rw [← isNone_superclass same]
  split at h
  · rename_i missing
    rwa [if_pos missing]
  · rename_i listed
    obtain ⟨blocks, written, rfl⟩ := map_eq_ok_iff.1 h
    -- the blocks of the other class are the same ones in another order
    have perm : ((d.declared kind).map (w.memberBlock d scope)).Perm (blocks.map .ok) := by
      rw [← mapM_eq_ok_iff.1 written, ← List.map_congr_left fun m _ =>
        show w.memberBlock c scope m = w.memberBlock d scope m from memberBlock_of_face same.name rfl]
      exact perm_map_of_perm_map (perm_declared same kind).symm fun _ _ _ _ => memberBlock_of_face rfl
    obtain ⟨others, written', again⟩ := exists_of_perm_map perm
    rw [if_neg listed, mapM_eq_ok_iff.2 written', map_ok, mergeSort_blockLe_congr again]

/-- Classes that are the same up to order have the same lines, if they have any. -/
theorem classLines_congr (same : c.withoutEmpty.SameUpToOrder d.withoutEmpty) {lines : List String}
    (h : w.classLines c = .ok lines) : w.classLines d = .ok lines := by
  have name : c.name = d.name := same.name
  have set : c.modifiers = d.modifiers := same.modifiers
  have parameters : c.typeParameters = d.typeParameters := same.typeParameters
  have kinds {scope : Erasure} {kind : MemberKind} (lines : List String)
      (h : w.kindLines c scope kind = .ok lines) : w.kindLines d scope kind = .ok lines :=
    kindLines_congr (c := c.withoutEmpty) (d := d.withoutEmpty) same h
  have hidden (tag : String) : w.hiddenLines tag c.hiddenFields = w.hiddenLines tag d.hiddenFields ∧
      w.hiddenLines tag c.hiddenClasses = w.hiddenLines tag d.hiddenClasses := by
    have fields : nonempty? c.hiddenFields = nonempty? d.hiddenFields := same.hiddenFields
    have classes : nonempty? c.hiddenClasses = nonempty? d.hiddenClasses := same.hiddenClasses
    simp only [hiddenLines, fields, classes, and_self]
  rw [classLines] at h ⊢
  obtain ⟨header, first, h⟩ := bind_eq_ok_iff.1 h
  obtain ⟨members, rest, h⟩ := bind_eq_ok_iff.1 h
  rw [← name, ← set, ← parameters, first, ok_bind, mapM_eq_ok_of_imp rest fun kind _ lines => kinds lines, ok_bind]
  have uses : annotationLines c.annotations = annotationLines d.annotations :=
    annotationLines_congr same.annotations
  rwa [(hidden _).1, (hidden _).2, uses] at h

/-- **The text does not depend on the order in memory**: classes that are the same up to order and to empty
lists of hidden names have the same lines in every format with any features, or both have none. In
particular a class is written like its canonical form. -/
theorem classLines_anyOrder (w : Writer) :
    (∀ c d : ClassDescription, c.withoutEmpty.SameUpToOrder d.withoutEmpty →
      (w.classLines c).toOption = (w.classLines d).toOption) ∧
    ∀ c : ClassDescription, (w.classLines c.canonicalize).toOption = (w.classLines c).toOption := by
  have alike (c d : ClassDescription) (same : c.withoutEmpty.SameUpToOrder d.withoutEmpty) :
      (w.classLines c).toOption = (w.classLines d).toOption :=
    toOption_eq_iff.2 fun _ => ⟨classLines_congr same, classLines_congr same.symm⟩
  exact ⟨alike, fun c => alike _ _ c.sameUpToOrder_canonicalize⟩

/-- Methods in another order and an empty list of hidden fields are written alike in the oldest format. -/
theorem classLines_runMethods :
    (withMethods [runMethod "a.Task" "long", runMethod "a.Task" "int"]).withoutEmpty.SameUpToOrder
      (ClassDescription.withoutEmpty { withMethods [runMethod "a.Task" "int", runMethod "a.Task" "long"] with
        hiddenFields := some ∅ }) ∧
    ((ofFormat .v21).classLines (withMethods [runMethod "a.Task" "long", runMethod "a.Task" "int"])).toOption =
      ((ofFormat .v21).classLines { withMethods [runMethod "a.Task" "int", runMethod "a.Task" "long"] with
        hiddenFields := some ∅ }).toOption := by
  have same : (withMethods [runMethod "a.Task" "long", runMethod "a.Task" "int"]).withoutEmpty.SameUpToOrder
      (ClassDescription.withoutEmpty { withMethods [runMethod "a.Task" "int", runMethod "a.Task" "long"] with
        hiddenFields := some ∅ }) := by
    refine ⟨rfl, rfl, rfl, fun kind => ?_, .refl _, by decide, by decide, rfl⟩
    cases kind with
    | method => exact List.Perm.swap _ _ _
    | superclass | superinterface | field | constructor | nested => exact .refl _
  exact ⟨same, (classLines_anyOrder (ofFormat .v21)).1 _ _ same⟩

end Writer

end ApiSurface
