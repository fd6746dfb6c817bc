import ApiSurface.Markup.Events
import ApiSurface.Module.Basic
import ApiSurface.Text.Quoted

/-!
The markup block that carries a module: an element `module` with one element for everything listed. A
reader takes the elements as they come; of several modules the last one counts.
-/

namespace ApiSurface

open ApiSurface.Text

/-- Why a text is no module block. -/
inductive ModuleFault where
  | markup (fault : Markup.Fault)
  | missingAttribute (tag key : String)
  /-- An element that is not inside another one where it belongs. -/
  | outside (tag container : String)
  | unknownElement (tag : String)
  | noModule
  deriving DecidableEq, Repr

/-- A name between angle brackets. -/
def bracketed (name : String) : String := "<" ++ name ++ ">"

/-- The fault in words. -/
def ModuleFault.message : ModuleFault → String
  | .markup fault => fault.message
  | .missingAttribute tag key => bracketed tag ++ " is missing attribute " ++ quoted key
  | .outside tag container => bracketed tag ++ " outside " ++ bracketed container
  | .unknownElement tag => "unknown element " ++ bracketed tag
  | .noModule => "no <module> element"

namespace ModuleDescription

/-! ### Writing -/

/-- A line of the block: the depth and the tag. -/
def indented (depth : Nat) (tag : List Char) : List Char := List.replicate (2 * depth) ' ' ++ tag

/-- An element with one attribute, and in it an element for each text of the set. -/
def listing (name key : String) (inner innerKey : String) (entry : String × Ordered.Set String) :
    List (List Char) :=
  let (value, texts) := entry
  if texts.isEmpty then [indented 1 (Markup.emptyTag name [(key, value)])]
  else
    indented 1 (Markup.startTag name [(key, value)]) ::
      texts.toList.map (fun t => indented 2 (Markup.emptyTag inner [(innerKey, t)])) ++
      [indented 1 (Markup.endTag name)]

/-- A truth value as it is written. -/
def flag (b : Bool) : String := if b then "true" else "false"

/-- The attributes of the module itself. -/
def headAttributes (m : ModuleDescription) : List (String × String) :=
  [("name", m.name)] ++ (m.version.map fun v => ("version", v)).toList ++
    (m.mainClass.map fun c => ("main", c)).toList

/-- The lines between the tags of the module. -/
def bodyLines (m : ModuleDescription) : List (List Char) :=
  m.packages.toList.map (fun p => indented 1 (Markup.emptyTag "package" [("name", p)])) ++
    m.conceals.toList.map (fun p => indented 1 (Markup.emptyTag "conceal" [("name", p)])) ++
    m.exports.toList.flatMap (listing "exports" "source" "target" "module") ++
    m.requires.toList.map (fun r => indented 1 (Markup.emptyTag "requires"
      [("name", r.name), ("mandated", flag r.mandated), ("public", flag r.transitive),
        ("synthetic", flag r.synthetic)])) ++
    m.provides.toList.flatMap (listing "provides" "service" "provider" "class") ++
    m.uses.toList.map (fun u => indented 1 (Markup.emptyTag "uses" [("service", u)]))

/-- The block without a line end after it. -/
def toMarkup (m : ModuleDescription) : String :=
  String.ofList <|
    if m.isBare then Markup.emptyTag "module" m.headAttributes
    else
      join ['\n'] ([Markup.startTag "module" m.headAttributes] ++ m.bodyLines ++ [Markup.endTag "module"])

/-! ### Reading -/

/-- A module being read, with the package and the service whose elements are open. -/
structure Draft where
  description : Option ModuleDescription
  package : Option String
  service : Option String

/-- The value of an attribute. -/
def attribute? (attributes : List Markup.Attribute) (key : String) : Option String :=
  (attributes.find? (·.name == key.toList)).map fun a => String.ofList a.value

/-- The value of an attribute that has to be there. -/
def required (tag : String) (attributes : List Markup.Attribute) (key : String) :
    Except ModuleFault String :=
  match attribute? attributes key with
  | some value => .ok value
  | none => .error (.missingAttribute tag key)

/-- Whether an attribute says `true`. -/
def attributeFlag (attributes : List Markup.Attribute) (key : String) : Bool :=
  attribute? attributes key == some "true"

/-- The map with the text added to the set at the key. -/
def addTo (m : Ordered.Map String (Ordered.Set String)) (key text : String) :
    Ordered.Map String (Ordered.Set String) :=
  m.alter key fun set => (set.getD ∅).insert text

/-- The map with a set at the key. -/
def addKey (m : Ordered.Map String (Ordered.Set String)) (key : String) :
    Ordered.Map String (Ordered.Set String) :=
  m.alter key fun set => set.getD ∅

/-- The module that begins with an element of these attributes. -/
def begin (attributes : List Markup.Attribute) : Except ModuleFault ModuleDescription :=
  (required "module" attributes "name").map fun name =>
    { named name with
      version := attribute? attributes "version"
      mainClass := attribute? attributes "main" }

/-- What the module needs according to an element of these attributes. -/
def requiresOf (attributes : List Markup.Attribute) : Except ModuleFault Requires :=
  (required "requires" attributes "name").map fun name =>
    ⟨name, attributeFlag attributes "mandated", attributeFlag attributes "public",
      attributeFlag attributes "synthetic"⟩

/-- An element inside a module. -/
def Draft.part (d : Draft) (m : ModuleDescription) (tag : String)
    (attributes : List Markup.Attribute) (empty : Bool) : Except ModuleFault Draft :=
  let get := required tag attributes
  let keep (m : ModuleDescription) : Draft := { d with description := some m }
  match tag with
  | "package" => (get "name").map fun name => keep { m with packages := m.packages.insert name }
  | "conceal" => (get "name").map fun name => keep { m with conceals := m.conceals.insert name }
  | "exports" => (get "source").map fun source =>
    { keep { m with exports := addKey m.exports source } with
      package := if empty then d.package else some source }
  | "target" =>
    match d.package with
    | none => .error (.outside tag "exports")
    | some source => (get "module").map fun target =>
      keep { m with exports := addTo m.exports source target }
  | "requires" => (requiresOf attributes).map fun r => keep { m with requires := m.requires.insert r }
  | "provides" => (get "service").map fun service =>
    { keep { m with provides := addKey m.provides service } with
      service := if empty then d.service else some service }
  | "provider" =>
    match d.service with
    | none => .error (.outside tag "provides")
    | some service => (get "class").map fun provider =>
      keep { m with provides := addTo m.provides service provider }
  | "uses" => (get "service").map fun service => keep { m with uses := m.uses.insert service }
  | _ => .error (.unknownElement tag)

/-- An element that is the module, or is part of one. -/
def Draft.opens (d : Draft) (tag : String) (attributes : List Markup.Attribute) (empty : Bool) :
    Except ModuleFault Draft :=
  if tag = "module" then (begin attributes).map fun m => { d with description := some m }
  else
    match d.description with
    | none => .error (.outside tag "module")
    | some m => d.part m tag attributes empty

/-- The end of an element. -/
def Draft.closes (d : Draft) (tag : String) : Draft :=
  if tag = "exports" then { d with package := none }
  else if tag = "provides" then { d with service := none }
  else d

/-- The draft after all that happens. -/
def Draft.run (d : Draft) : Markup.Events → Except ModuleFault Draft
  | .ended => .ok d
  | .failed fault => .error (.markup fault)
  | .next (.opens name attributes empty) more =>
    match d.opens (String.ofList name) attributes empty with
    | .error fault => .error fault
    | .ok d => d.run more
  | .next (.closes name) more => (d.closes (String.ofList name)).run more

/-- The module that a block describes. -/
def ofMarkup (text : String) : Except ModuleFault ModuleDescription :=
  match Draft.run ⟨none, none, none⟩ (Markup.events text.toList) with
  | .error fault => .error fault
  | .ok d =>
    match d.description with
    | some m => .ok m
    | none => .error .noModule

end ModuleDescription

end ApiSurface
