import ApiSurface.Legacy

/-!
The formats of signature files. A format has a banner, the features that it can carry, and the old
spellings that it uses. Each newer format carries everything that the one before it carries. Main
statements: names and absence markers of features are read back (`ofName?_name`,
`ofAbsenceMarker?_absenceMarker`), and the banners tell the formats apart (`byBanner?_banner`).
-/

namespace ApiSurface

open ApiSurface.Text

/-- Something that a signature file may carry. -/
inductive Feature where
  | constInfo | tigerInfo | moduleInfo | listOfHiders | mergeModeSupported | copyRight
  deriving DecidableEq, Repr

namespace Feature

/-- All features in the order in which they are listed. -/
def all : List Feature :=
  [.constInfo, .tigerInfo, .moduleInfo, .listOfHiders, .mergeModeSupported, .copyRight]

/-- The name of a feature. -/
def name : Feature → String
  | .constInfo => "ConstInfo"
  | .tigerInfo => "TigerInfo"
  | .moduleInfo => "ModuleInfo"
  | .listOfHiders => "ListOfHiders"
  | .mergeModeSupported => "MergeModeSupported"
  | .copyRight => "CopyRight"

/-- The feature of this name. -/
def ofName? (text : String) : Option Feature := all.find? (·.name == text)

/-- The header line that says that the feature was left out. -/
def absenceMarker (f : Feature) : String := "#" ++ f.name

/-- The feature that a header line says was left out. -/
def ofAbsenceMarker? (line : List Char) : Option Feature :=
  (afterLead? ['#'] line).bind fun text => ofName? (String.ofList text)

@[simp] theorem ofName?_name (f : Feature) : ofName? f.name = some f := by cases f <;> decide

@[simp] theorem ofAbsenceMarker?_absenceMarker (f : Feature) :
    ofAbsenceMarker? f.absenceMarker.toList = some f := by cases f <;> decide

end Feature

/-- A set of features, listed in their order. -/
def Feature.inOrder (p : Feature → Bool) : List Feature := Feature.all.filter p

/-- A format of signature files. -/
structure Format where
  banner : String
  /-- The features that the format can carry, in their order. -/
  features : List Feature
  rules : List LegacyRule
  deriving DecidableEq, Repr

namespace Format

/-- Whether the format can carry the feature. -/
def supports (f : Format) (feature : Feature) : Bool := f.features.contains feature

/-- Whether the format uses the old spelling. -/
def hasRule (f : Format) (rule : LegacyRule) : Bool := f.rules.contains rule

/-- A format with these features, whatever their order. -/
def of (banner : String) (features : List Feature) (rules : List LegacyRule) : Format :=
  ⟨banner, Feature.inOrder features.contains, rules⟩

/-- The oldest format. -/
def v21 : Format :=
  of "#Signature file v2.1" [.constInfo] [.nullSuper, .vmArrays, .initConstructors, .encodedConstants]

/-- The first format with generics and annotations. -/
def v31 : Format := of "#Signature file v3.1" [.constInfo, .tigerInfo] [.encodedConstants]

/-- The first format without old spellings. -/
def v40 : Format := of "#Signature file v4.0" [.constInfo, .tigerInfo, .listOfHiders] []

/-- With the copyright text. -/
def v41 : Format := of "#Signature file v4.1" [.constInfo, .tigerInfo, .listOfHiders, .copyRight] []

/-- With the mark that files can be merged. -/
def v42 : Format :=
  of "#Signature file v4.2"
    [.constInfo, .tigerInfo, .listOfHiders, .copyRight, .mergeModeSupported] []

/-- With modules. -/
def v43 : Format :=
  of "#Signature file v4.3"
    [.constInfo, .tigerInfo, .listOfHiders, .copyRight, .mergeModeSupported, .moduleInfo] []

/-- All formats, the newest one first. -/
def newestFirst : List Format := [v43, v42, v41, v40, v31, v21]

/-- All formats, the oldest one first. -/
def oldestFirst : List Format := newestFirst.reverse

/-- The newest format. -/
def latest : Format := v43

/-- The format with this banner. Blanks at the end of the line do not count. -/
def byBanner? (line : List Char) : Option Format :=
  newestFirst.find? (·.banner == String.ofList (trimEnd line))

/-- The newest format that carries exactly these features. -/
def forFeatures? (features : List Feature) : Option Format :=
  newestFirst.find? (·.features == Feature.inOrder features.contains)

/-- A banner tells its format. -/
theorem byBanner?_banner {f : Format} (h : f ∈ newestFirst) : byBanner? f.banner.toList = some f := by
  simp only [newestFirst, List.mem_cons, List.not_mem_nil, or_false] at h
  rcases h with rfl | rfl | rfl | rfl | rfl | rfl <;> decide

end Format

end ApiSurface
