import ApiSurface.Proofs.SignatureFile.WellFormed

/-!
The round trip in the spelling of today. Main statement: whatever features are left out of a modern format,
a file of well-formed classes and modules is written, and from it is read what those features leave of
them, in their order (`readAll_of_leavingOut`).
-/

namespace ApiSurface

open ApiSurface.Text ApiSurface.Line ApiSurface.SignatureFile

namespace Format

/-- The formats without old spellings. -/
def modern : List Format := [v40, v41, v42, v43]

theorem rules_of_modern {f : Format} (h : f ∈ modern) : f.rules = [] := by
  simp only [modern, List.mem_cons, List.not_mem_nil, or_false] at h
  rcases h with rfl | rfl | rfl | rfl <;> rfl

theorem mem_newestFirst_of_modern {f : Format} (h : f ∈ modern) : f ∈ newestFirst := by
  simp only [modern, List.mem_cons, List.not_mem_nil, or_false] at h
  rcases h with rfl | rfl | rfl | rfl <;> simp [newestFirst]

end Format

namespace Writer

/-- Leaves features out one after the other. -/
def leaveOut (w : Writer) (left : List Feature) : Except WriteError Writer := left.foldlM removeFeature w

/-- Features that the format can carry can be left out, in any order. -/
theorem leaveOut_eq_ok {w : Writer} {left : List Feature} (can : ∀ x ∈ left, w.format.supports x) :
    w.leaveOut left = .ok { w with features := w.features.filter fun x => !left.contains x } := by
  induction left generalizing w with
  | nil => simp [leaveOut]
  | cons x left ih =>
    have first : w.removeFeature x = .ok { w with features := w.features.filter (· ≠ x) } := by
      rw [removeFeature, if_pos (can x (by simp))]
    have later := ih (w := { w with features := w.features.filter (· ≠ x) }) fun y mem => can y (by simp [mem])
    have same : (w.features.filter (· ≠ x)).filter (fun y => !left.contains y) =
        w.features.filter fun y => !(x :: left).contains y := by
      rw [List.filter_filter]
      refine List.filter_congr fun y _ => ?_
      by_cases here : y = x <;> simp [here]
    rw [leaveOut] at later
    rw [leaveOut, List.foldlM_cons, first, ok_bind, later, same]

end Writer

/-- What is written of well-formed classes and modules, whatever features are left out, is read back as what
those features leave of them, in their order. -/
theorem readAll_of_leavingOut {f : Format} (modern : f ∈ Format.modern) {left : List Feature}
    (can : ∀ x ∈ left, f.supports x) {cs : List ClassDescription} (wellFormed : ∀ c ∈ cs, c.WellFormed) :
    ∃ w text ds r, (Writer.ofFormat f).leaveOut left = .ok w ∧ w.writeAll cs = .ok text ∧
      (Reader.ofFormat f (ofText text)).readAll = (.ok ds, r) ∧
      List.Forall₂ ClassDescription.SameUpToOrder ds
        (cs.filterMap (ClassDescription.project? fun x => f.supports x && !left.contains x)) := by
  let w : Writer := { Writer.ofFormat f with features := f.features.filter fun x => !left.contains x }
  have active : w.hasFeature = fun x => f.supports x && !left.contains x := by
    funext x
    rw [Bool.eq_iff_iff]
    simp [Writer.hasFeature, Format.supports, w]
  have readable : ∀ d ∈ cs.filterMap (ClassDescription.project? w.hasFeature), d.Readable w.hasFeature := by
    intro d mem
    obtain ⟨c, inList, kept⟩ := List.mem_filterMap.1 mem
    exact (wellFormed c inList).readable d kept
  have erases : ∀ c ∈ cs, c.moduleInfo = none → c.ErasesThrows w.hasFeature := by
    intro c inList info
    have formed := wellFormed c inList
    rw [ClassDescription.WellFormed, info] at formed
    exact formed.erasesThrows
  obtain ⟨written, r, read, -⟩ := readAll_of_writeAll (w := w) (Format.mem_newestFirst_of_modern modern)
    (Format.rules_of_modern modern) (List.filter_subset_self _) rfl (by simp [SingleLine, w, Writer.ofFormat])
    (by simp [Writer.copyrightTexts, w, Writer.ofFormat]) erases readable
  refine ⟨w, _, _, r, Writer.leaveOut_eq_ok can, written, read, ?_⟩
  rw [← active, List.forall₂_map_left_iff, List.forall₂_same]
  exact fun d _ => d.sameUpToOrder_arrange

/-! ### A file -/

/-- A generic class with a field, a method, an inherited method and an annotation. -/
def ClassDescription.box : ClassDescription :=
  { named "a.Box" (.ofList [.public, .synthetic]) with
    typeParameters := some "<T extends java.lang.Object>"
    superclass := some (.superclass "a.Box" "java.lang.Object")
    fields := [.field "a.Box" "count" (.ofList [.protected]) "int" (some "1")]
    methods := [.method "a.Base" "size" .none "int" "", .method "a.Box" "get" (.ofList [.public]) "T" "T,int"]
    annotations := [⟨0, "java.lang.Deprecated", [⟨"java.lang.String", "since", .string "1, 2"⟩], none⟩] }

theorem ClassDescription.wellFormed_box : box.WellFormed := by
  have number : IsTypeText "int".toList := ⟨.primitive .int, trivial, by decide, by decide⟩
  have bound : IsTypeText "T".toList :=
    ⟨.variable ['T'], (by decide : IsIdentifier ['T']), by decide, by decide⟩
  have object : IsTypeText "java.lang.Object".toList := ⟨.object, JavaType.legal_object, by decide, by decide⟩
  have parameters : IsParametersText "<T extends java.lang.Object>".toList := by
    refine ⟨[⟨['T'], []⟩], fun p mem => ?_, by decide⟩
    obtain rfl := List.mem_singleton.1 mem
    exact ⟨by decide, by simp⟩
  have arguments : IsArgumentsText "T,int".toList := by
    refine ⟨[.variable ['T'], .primitive .int], fun t mem => ?_, .inl (by decide)⟩
    simp only [List.mem_cons, List.not_mem_nil, or_false] at mem
    rcases mem with rfl | rfl
    · exact (by decide : IsIdentifier ['T'])
    · trivial
  have own : box.SourceClass := by
    refine ⟨⟨.of_pieces (by decide), by decide⟩, fun list listed => ?_, fun kind m mem => ?_, fun use mem => ?_,
      fun names listed => ?_, fun names listed => ?_⟩
    · cases listed
      exact parameters
    · cases kind with
      | superclass =>
        obtain rfl := List.mem_singleton.1 (show m ∈ [Member.superclass "a.Box" "java.lang.Object"] from mem)
        exact ⟨rfl, object, by simp [Member.superclass]⟩
      | field =>
        obtain rfl := List.mem_singleton.1
          (show m ∈ [Member.field "a.Box" "count" (.ofList [.protected]) "int" (some "1")] from mem)
        exact ⟨rfl, ⟨number, by decide, by decide⟩, by simp [Member.field]⟩
      | method =>
        obtain rfl := List.mem_singleton.1
          (show m ∈ [Member.method "a.Box" "get" (.ofList [.public]) "T" "T,int"] from mem)
        exact ⟨rfl, ⟨by simp, bound, by decide, arguments, by simp [AreExceptions], by simp⟩,
          by simp [Member.method]⟩
      | superinterface | constructor | nested => cases mem
    · obtain rfl := List.mem_singleton.1 mem
      refine ⟨Annotated.ofLine_printUse ⟨⟨by decide, by decide, by decide, by decide⟩, by simp [Annotated.SoundPlace],
        ⟨.plain (by decide) (by decide) (by decide) (by decide), ⟨by decide, by decide, by decide, by decide⟩,
          trivial⟩, trivial⟩, by decide⟩
    · cases listed
    · cases listed
  exact own

/-- A generic class and a module, without generics and constants. -/
theorem readAll_box : ∃ w text ds r,
    (Writer.ofFormat .v43).leaveOut [.tigerInfo, .constInfo] = .ok w ∧
      w.writeAll [.box, .ofModule (.named "m")] = .ok text ∧
      (Reader.ofFormat .v43 (ofText text)).readAll = (.ok ds, r) ∧
      List.Forall₂ ClassDescription.SameUpToOrder ds
        ([.box, .ofModule (.named "m")].filterMap (ClassDescription.project? fun x =>
          Format.v43.supports x && !([.tigerInfo, .constInfo] : List Feature).contains x)) := by
  refine readAll_of_leavingOut (by simp [Format.modern]) (by decide) fun c mem => ?_
  simp only [List.mem_cons, List.not_mem_nil, or_false] at mem
  rcases mem with rfl | rfl
  · exact ClassDescription.wellFormed_box
  · show ∀ t ∈ (ModuleDescription.named "m").texts, SingleLine t.toList
    decide

end ApiSurface
