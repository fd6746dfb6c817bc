import ApiSurface.ClassFile.Flags
import ApiSurface.ClassFile.Pool
import ApiSurface.ClassFile.Tables
import ApiSurface.Module.Basic

/-!
The module that a class file describes. Every exported package belongs to the module, and the module
conceals the others.
-/

namespace ApiSurface.ClassFile

/-- Puts the name of every index into a set. -/
def nameSet (name : UInt16 → Except ClassFault (List Char)) (indices : List UInt16) :
    Except ClassFault (Ordered.Set String) := do
  return .ofList ((← indices.mapM name).map String.ofList)

/-- A module that is needed. -/
def describeRequires (pool : Pool) (r : RequiresRow) : Except ClassFault Requires := do
  let name ← pool.moduleName r.name
  return ⟨String.ofList name, isSet r.flags mandatedFlag, isSet r.flags transitiveFlag,
    isSet r.flags syntheticFlag⟩

/-- A package that is offered, with the modules that it is offered to. -/
def describeExports (pool : Pool) (r : ExportsRow) :
    Except ClassFault (String × Ordered.Set String) := do
  let targets ← nameSet pool.moduleName r.targets
  return (String.ofList (← pool.packageName r.package), targets)

/-- A service with its providers. -/
def describeProvides (pool : Pool) (r : ProvidesRow) :
    Except ClassFault (String × Ordered.Set String) := do
  let providers ← nameSet pool.className r.providers
  return (String.ofList (← pool.className r.service), providers)

/-- What the table of a module says. -/
def describeTable (pool : Pool) (t : ModuleTable) : Except ClassFault ModuleDescription := do
  let name ← pool.moduleName t.name
  let version ← if t.version = 0 then pure none else some <$> pool.text t.version
  let requires ← t.requires.mapM (describeRequires pool)
  let exports ← t.exports.mapM (describeExports pool)
  let uses ← nameSet pool.className t.uses
  let provides ← t.provides.mapM (describeProvides pool)
  return { ModuleDescription.named (String.ofList name) with
    version := version.map String.ofList
    requires := .ofList requires
    exports := .ofList exports
    uses := uses
    provides := .ofList provides }

/-- The module with the packages that it holds besides the exported ones. -/
def withPackages (m : ModuleDescription) (packages : List String) : ModuleDescription :=
  let all := Ordered.Set.ofList (packages ++ m.exports.keys)
  { m with
    packages := all
    conceals := .ofList (all.toList.filter fun p => (m.exports.get? p).isNone) }

/-- The module that the attributes of a class file describe. -/
def describeModule (pool : Pool) (attributes : List Attribute) : Except ClassFault ModuleDescription := do
  match ← pool.attributeValue? "Module" ModuleTable.decode attributes with
  | none => throw .noModuleAttribute
  | some table =>
    let m ← describeTable pool table
    let packages ← pool.attributeValue? "ModulePackages" (counted u16) attributes
    let packages ← (packages.getD []).mapM pool.packageName
    let mainClass ← pool.attributeValue? "ModuleMainClass" u16 attributes
    let mainClass ← mainClass.mapM pool.className
    return { withPackages m (packages.map String.ofList) with mainClass := mainClass.map String.ofList }

end ApiSurface.ClassFile
