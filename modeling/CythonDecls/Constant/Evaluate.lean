import CythonDecls.Constant.Literal

/-!
# Evaluation of constant expressions

Literals, the signs, the complement and the shifts have values; every other
expression is refused. Integers are signed 64-bit words.
-/

namespace CythonDecls.Constant

def literal (kind : LiteralKind) (text : String) : Except Error Value :=
  match Literal.value? kind text.toList with
  | some v => .ok v
  | none => .error (.invalidLiteral text)

def applyUnary (op : UnaryOp) (v : Value) : Except Error Value :=
  match op, v with
  | .not, _ => .error (.unsupported "unary `!`")
  | .plus, .floating x => .ok (.floating x)
  | .minus, .floating x => .ok (.floating (-x))
  | op, v =>
    match v.integral? with
    | none => .error (.typeMismatch op.symbol v.kind)
    | some n => .ok (.integer (match op with
      | .minus => -n
      | .complement => ~~~n
      | _ => n))

def shiftOperand (op : BinaryOp) (v : Value) : Except Error Int64 :=
  match v.integral? with
  | some n => .ok n
  | none => .error (.typeMismatch op.symbol v.kind)

/-- Bits shifted out to the left are lost; to the right the sign is kept. -/
def shift (op : BinaryOp) (n count : Int64) : Except Error Int64 :=
  if 0 ≤ count ∧ count < 64 then
    .ok (match op with
      | .shl => n <<< count
      | _ => n >>> count)
  else .error (.shiftOutOfRange count)

def evaluate : ConstExpr → Except Error Value
  | .literal kind text => literal kind text
  | .unary op operand => do applyUnary op (← evaluate operand)
  | .binary op lhs rhs =>
    if op = .shl ∨ op = .shr then do
      let n ← shiftOperand op (← evaluate lhs)
      let count ← shiftOperand op (← evaluate rhs)
      return .integer (← shift op n count)
    else .error (.unsupported s!"binary `{op.symbol}`")
  | .identifier name => .error (.unsupported s!"identifier `{name}`")
  | .unsupported text => .error (.unsupported text)

def evaluateIntegral (e : ConstExpr) : Except Error Int64 := do (← evaluate e).integral

end CythonDecls.Constant
