import ApiSurface.Decimal.Layout
import ApiSurface.Literal.Escape
import ApiSurface.Text.Blank
import ApiSurface.Text.Quoted

/-!
Constants of fields and annotation values in their textual form: `5`, `"text"`, `'c'`, `true`. The two
oldest formats keep strings without quotes and with numeric escapes only, and characters as the number of
their code unit; `encodeConstant` and `decodeConstant` go between the two spellings.
-/

namespace ApiSurface.Literal

open ApiSurface.Text ApiSurface.Decimal

/-- A string between double quotes. -/
def stringLiteral (cs : List Char) : List Char := '"' :: escape '"' cs ++ ['"']

/-- A character between single quotes. -/
def charLiteral (c : Char) : List Char := '\'' :: escape '\'' [c] ++ ['\'']

/-- Numbers never have an exponent; whole ones end in `.0` below ten million. -/
def numberStyle : Style := ⟨"NaN", "Infinity", 7, none⟩

/-- A number of the 64-bit format. -/
def doubleLiteral (v : BinaryValue) : List Char := numberStyle.text .double v

/-- A number of the 32-bit format; whole ones have the digits of the 64-bit format. -/
def floatLiteral (v : BinaryValue) : List Char :=
  match v with
  | .finite .. =>
    if v.isIntegral then doubleLiteral (v.normalized .double) else numberStyle.text .single v
  | _ => doubleLiteral v

/-- Why an old spelling stands for no constant. -/
inductive ConstantFault where
  | escape (fault : EscapeFault)
  | badCharacter (text : List Char)
  | loneSurrogate (code : Nat)
  deriving DecidableEq, Repr

/-- The fault in words. -/
def ConstantFault.message : ConstantFault → String
  | .escape fault => fault.message
  | .badCharacter text => "bad char constant " ++ quoted (String.ofList text)
  | .loneSurrogate code => "char constant " ++ toString code ++ " is a lone surrogate"

/-- The type of strings, whose constants the old formats spell differently. -/
def stringType : List Char := "java.lang.String".toList

/-- The type of single code units, likewise. -/
def charType : List Char := "char".toList

/-- What is between two of these quotes at the ends of the text. -/
def unquote? (quote : Char) (cs : List Char) : Option (List Char) :=
  (afterLead? [quote] cs).bind (beforeTail? [quote])

/-- A character in the inside of an old string constant. -/
def numericEscapeChar (c : Char) : List Char :=
  if c = '"' ∨ c = '\\' then numericEscape c else if isPlain c then [c] else numericEscape c

/-- The old spelling of a constant of this type. What is no literal of the type stays as it is. -/
def encodeConstant (type modern : List Char) : List Char :=
  if type = stringType then
    match (unquote? '"' modern).map unescape with
    | some (.ok text) => text.flatMap numericEscapeChar
    | _ => modern
  else if type = charType then
    match (unquote? '\'' modern).map unescape with
    | some (.ok text) =>
      match (units text).head? with
      | some u => decimal u
      | none => []
    | _ => modern
  else modern

/-- The constant of this type with the old spelling. A code of more than 16 bits loses its high bits. -/
def decodeConstant (type old : List Char) : Except ConstantFault (List Char) :=
  if type = stringType then
    match unescape old with
    | .ok text => .ok (stringLiteral text)
    | .error fault => .error (.escape fault)
  else if type = charType then
    match readDecimal? 0xFFFFFFFF (trim old) with
    | none => .error (.badCharacter old)
    | some code =>
      match ofUnits? [code % 0x10000] with
      | some (c :: _) => .ok (charLiteral c)
      | _ => .error (.loneSurrogate code)
  else .ok old

end ApiSurface.Literal
