import CythonDecls.Decimal.Shortest
import CythonDecls.Text.Quoted
import CythonDecls.Tree.ConstExpr

/-!
# Values of constant expressions
-/

namespace CythonDecls.Constant

inductive Value where
  | integer (n : Int64)
  | floating (x : Float)
  | character (c : Char)
  | string (s : String)

inductive Error where
  | invalidLiteral (text : String)
  | unsupported (expr : String)
  | typeMismatch (op : String) (operand : LiteralKind)
  | shiftOutOfRange (count : Int64)
  | notIntegral (found : LiteralKind)
  deriving DecidableEq, Repr

/-- The adjective in messages. -/
def kindName : LiteralKind → String
  | .integer => "integer"
  | .floating => "floating"
  | .character => "character"
  | .string => "string"

namespace Error

def message : Error → String
  | invalidLiteral text => s!"invalid literal `{text}`"
  | unsupported expr => s!"unsupported constant expression: {expr}"
  | typeMismatch op operand =>
    s!"operator `{op}` cannot be applied to a {kindName operand} value"
  | shiftOutOfRange count => s!"shift count {count.toInt} out of range"
  | notIntegral found => s!"expected an integral value, found a {kindName found} value"

end Error

namespace Value

def kind : Value → LiteralKind
  | integer _ => .integer
  | floating _ => .floating
  | character _ => .character
  | string _ => .string

/-- The code point of a character as a number. -/
def codePoint (c : Char) : Int64 := Int64.ofNat c.toNat

/-- Integers and characters stand for whole numbers. -/
def integral? : Value → Option Int64
  | integer n => some n
  | character c => some (codePoint c)
  | _ => none

def integral (v : Value) : Except Error Int64 :=
  match v.integral? with
  | some n => .ok n
  | none => .error (.notIntegral v.kind)

def text : Value → String
  | integer n => toString n.toInt
  | floating x => Decimal.text x
  | character c => Text.quotedChar c
  | string s => Text.quotedString s

end Value

end CythonDecls.Constant
