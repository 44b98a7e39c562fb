import CythonDecls.Tree.Location

/-!
# Constant expressions and enumerations as written
-/

namespace CythonDecls

inductive UnaryOp where
  | plus
  | minus
  | complement
  | not
  deriving DecidableEq, Repr

inductive BinaryOp where
  | add
  | sub
  | mul
  | div
  | rem
  | shl
  | shr
  | and
  | or
  | xor
  deriving DecidableEq, Repr

def UnaryOp.symbol : UnaryOp → String
  | .plus => "+"
  | .minus => "-"
  | .complement => "~"
  | .not => "!"

def UnaryOp.all : List UnaryOp := [.plus, .minus, .complement, .not]

def UnaryOp.ofSymbol? (s : String) : Option UnaryOp := all.find? (·.symbol = s)

def BinaryOp.symbol : BinaryOp → String
  | .add => "+"
  | .sub => "-"
  | .mul => "*"
  | .div => "/"
  | .rem => "%"
  | .shl => "<<"
  | .shr => ">>"
  | .and => "&"
  | .or => "|"
  | .xor => "^"

def BinaryOp.all : List BinaryOp := [.add, .sub, .mul, .div, .rem, .shl, .shr, .and, .or, .xor]

def BinaryOp.ofSymbol? (s : String) : Option BinaryOp := all.find? (·.symbol = s)

/-- The kinds of literal, each kept as its source text. -/
inductive LiteralKind where
  | integer
  | floating
  | character
  | string
  deriving DecidableEq, Repr

/-- The expression of an enumerator. `unsupported` is source text that the
front end could not classify. -/
inductive ConstExpr where
  | literal (kind : LiteralKind) (text : String)
  | unary (op : UnaryOp) (operand : ConstExpr)
  | binary (op : BinaryOp) (lhs rhs : ConstExpr)
  | identifier (name : String)
  | unsupported (text : String)
  deriving DecidableEq, Repr

structure Enumerator where
  name : String
  value : Option ConstExpr
  location : Option Location
  deriving DecidableEq, Repr

/-- An enum as written: a reference when `enumerators` is absent, else a body. -/
structure EnumSpec where
  tag : Option String
  enumerators : Option (List Enumerator)
  location : Option Location
  deriving DecidableEq, Repr

end CythonDecls
