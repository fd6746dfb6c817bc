import ApiSurface.Modifiers

/-!
The bits that stand for modifiers in class files. A bit may mean one thing for fields and another for
methods; bits without a meaning are ignored.
-/

namespace ApiSurface.ClassFile

/-- Whether a bit is set. -/
def isSet (flags bit : UInt16) : Bool := flags &&& bit != 0

/-- The modifiers of the bits that are set. -/
def modifiersOf (table : List (UInt16 × Modifier)) (flags : UInt16) : Modifiers :=
  .ofList ((table.filter fun (bit, _) => isSet flags bit).map Prod.snd)

/-- The bits of a class, as its own class file has them. -/
def classFlags : List (UInt16 × Modifier) :=
  [(0x0001, .public), (0x0010, .final), (0x0200, .interface), (0x0400, .abstract),
    (0x1000, .synthetic), (0x2000, .annotationType), (0x4000, .enum)]

/-- The bits of a nested class, as the table of nested classes has them. -/
def nestedFlags : List (UInt16 × Modifier) :=
  [(0x0001, .public), (0x0002, .private), (0x0004, .protected), (0x0008, .static), (0x0010, .final),
    (0x0200, .interface), (0x0400, .abstract), (0x1000, .synthetic), (0x2000, .annotationType),
    (0x4000, .enum)]

/-- The bits of a field. -/
def fieldFlags : List (UInt16 × Modifier) :=
  [(0x0001, .public), (0x0002, .private), (0x0004, .protected), (0x0008, .static), (0x0010, .final),
    (0x0040, .volatile), (0x0080, .transient), (0x1000, .synthetic), (0x4000, .enum)]

/-- The bits of a method. -/
def methodFlags : List (UInt16 × Modifier) :=
  [(0x0001, .public), (0x0002, .private), (0x0004, .protected), (0x0008, .static), (0x0010, .final),
    (0x0020, .synchronized), (0x0040, .bridge), (0x0080, .varargs), (0x0100, .native),
    (0x0400, .abstract), (0x0800, .strictfp), (0x1000, .synthetic)]

/-- The bit of a class file that stands for a module. -/
def moduleFlag : UInt16 := 0x8000

/-- The bit of a module that whoever needs this one gets as well. -/
def transitiveFlag : UInt16 := 0x0020

/-- The bit of a module that the compiler added. -/
def syntheticFlag : UInt16 := 0x1000

/-- The bit of a module that every module needs. -/
def mandatedFlag : UInt16 := 0x8000

end ApiSurface.ClassFile
