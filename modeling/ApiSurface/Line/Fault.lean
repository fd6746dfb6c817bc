import ApiSurface.Annotated.Reading
import ApiSurface.Literal.Constant
import ApiSurface.Module.Markup

/-!
What can be wrong with a line of a signature file, or with the block of a module, and where.
-/

namespace ApiSurface

open ApiSurface.Text

/-- Why a line says nothing. -/
inductive LineFault where
  | bracket (fault : BracketFault)
  | use (fault : UseFault)
  | constant (fault : Literal.ConstantFault)
  | moduleBlock (fault : ModuleFault)
  /-- A part of the line that has to be there is not. -/
  | missing (what : String)
  | afterClassName
  | argumentsNotClosed
  | unexpectedToken (token : String)
  | afterFieldName
  | valueNotClosed
  | noClassHeader
  | unrecognized
  | moduleNotClosed
  deriving DecidableEq, Repr

/-- The fault in words. -/
def LineFault.message : LineFault → String
  | .bracket fault => fault.message
  | .use fault => fault.message
  | .constant fault => fault.message
  | .moduleBlock fault => "Invalid module block: " ++ fault.message
  | .missing what => "missing " ++ what
  | .afterClassName => "trailing tokens after class name"
  | .argumentsNotClosed => "argument list is not closed"
  | .unexpectedToken token => "unexpected token " ++ quoted token
  | .afterFieldName => "unexpected token after field name"
  | .valueNotClosed => "unterminated <value=...>"
  | .noClassHeader => "expected a class header"
  | .unrecognized => "unrecognized line"
  | .moduleNotClosed => "unterminated module block"

/-- A faulty text and the number of its first line, which is 0 as long as it is not known. -/
structure Malformed where
  line : Nat
  fault : LineFault
  text : String
  deriving DecidableEq, Repr

/-- The fault with its place and the text. -/
def Malformed.message (m : Malformed) : String :=
  "Malformed signature line " ++ toString m.line ++ ": " ++ m.fault.message ++ ": " ++ m.text

/-- The fault at this line. -/
def Malformed.atLine (m : Malformed) (line : Nat) : Malformed := { m with line := line }

namespace Line

/-- A fault of this text, at a line that is not known. -/
def fail {α : Type} (fault : LineFault) (text : List Char) : Except Malformed α :=
  .error ⟨0, fault, String.ofList text⟩

/-- A fault of the bracket scanner in this text. -/
def liftBrackets {α : Type} (text : List Char) : Except BracketFault α → Except Malformed α
  | .ok a => .ok a
  | .error fault => fail (.bracket fault) text

end Line

end ApiSurface
