import CythonDecls.Constant.Evaluate
import Mathlib.Algebra.Group.Int.Defs
import Mathlib.Algebra.Group.Nat.Defs
import Mathlib.Data.Option.Basic

/-!
# Two's complement

`ConstExpr.reference?` computes a constant expression on unbounded integers
and wraps what may leave 64 signed bits. Evaluation gives the same number,
and gives one exactly where every node of the expression is of a kind that
stands for whole numbers.
-/

namespace CythonDecls

open Constant

/-- The signed number with the same last 64 bits. -/
def wrap64 (n : Int) : Int := n.bmod (2 ^ 64)

namespace UnaryOp

/-- Negation and complement are those of the integers, modulo 2^64. -/
def reference? : UnaryOp → Int → Option Int
  | .plus, n => some n
  | .minus, n => some (wrap64 (-n))
  | .complement, n => some (wrap64 (-n - 1))
  | .not, _ => none

end UnaryOp

namespace BinaryOp

/-- A shift multiplies or divides by a power of two. -/
def reference? (op : BinaryOp) (n count : Int) : Option Int :=
  if 0 ≤ count ∧ count < 64 then
    match op with
    | .shl => some (wrap64 (n * 2 ^ count.toNat))
    | .shr => some (n / 2 ^ count.toNat)
    | _ => none
  else none

end BinaryOp

namespace ConstExpr

/-- A character is its code point; numbers with a fraction and strings are nothing. -/
def reference? : ConstExpr → Option Int
  | .literal .integer text => (Literal.integer? text.toList).map Int64.toInt
  | .literal .character text => (Literal.character? text.toList).map fun c => (c.toNat : Int)
  | .unary op operand => operand.reference?.bind op.reference?
  | .binary op lhs rhs => lhs.reference?.bind fun n => rhs.reference?.bind (op.reference? n)
  | _ => none

def nodes : ConstExpr → List ConstExpr
  | .unary op operand => .unary op operand :: operand.nodes
  | .binary op lhs rhs => .binary op lhs rhs :: (lhs.nodes ++ rhs.nodes)
  | e => [e]

/-- What one node has to be in an expression with a whole number for its value. -/
def Allowed : ConstExpr → Prop
  | .literal .integer text => (Literal.integer? text.toList).isSome
  | .literal .character text => (Literal.character? text.toList).isSome
  | .unary op _ => op ≠ .not
  | .binary op _ count => (op = .shl ∨ op = .shr) ∧
      ∃ c, count.reference? = some c ∧ 0 ≤ c ∧ c < 64
  | _ => False

end ConstExpr

theorem UnaryOp.reference?_isSome (op : UnaryOp) (n : Int) :
    (op.reference? n).isSome ↔ op ≠ .not := by
  cases op <;> simp [UnaryOp.reference?]

theorem BinaryOp.reference?_isSome (op : BinaryOp) (n count : Int) :
    (op.reference? n count).isSome ↔ (op = .shl ∨ op = .shr) ∧ 0 ≤ count ∧ count < 64 := by
  unfold BinaryOp.reference?
  by_cases h : 0 ≤ count ∧ count < 64
  · rw [if_pos h]
    cases op <;> simp [h]
  · simp [h]

theorem BinaryOp.reference?_none {op : BinaryOp} (hop : ¬(op = .shl ∨ op = .shr)) (n count : Int) :
    op.reference? n count = none := by
  rw [← Option.not_isSome_iff_eq_none, reference?_isSome]
  exact fun h => hop h.1

namespace ConstExpr

theorem reference?_isSome (e : ConstExpr) : e.reference?.isSome ↔ ∀ s ∈ e.nodes, s.Allowed := by
  induction e with
  | literal kind text => cases kind <;> simp [reference?, nodes, Allowed]
  | unary op e ih =>
    rw [reference?, nodes, List.forall_mem_cons, ← ih, Allowed]
    cases e.reference? with
    | none => simp
    | some n => simp [UnaryOp.reference?_isSome]
  | binary op lhs rhs ihl ihr =>
    rw [reference?, nodes, List.forall_mem_cons, List.forall_mem_append, ← ihl, ← ihr, Allowed]
    cases lhs.reference? with
    | none => simp
    | some n =>
      cases rhs.reference? with
      | none => simp
      | some c => simp [BinaryOp.reference?_isSome]
  | identifier _ => simp [reference?, nodes, Allowed]
  | unsupported _ => simp [reference?, nodes, Allowed]

end ConstExpr

end CythonDecls

namespace CythonDecls.Constant

/-! ## Literals -/

section
variable {kind : LiteralKind} {text : String}

theorem evaluate_literal_ok {v : Value} :
    evaluate (.literal kind text) = .ok v ↔ Literal.value? kind text.toList = some v := by
  unfold evaluate literal
  cases Literal.value? kind text.toList <;> simp

theorem evaluate_literal_error {e : Error} : evaluate (.literal kind text) = .error e ↔
    e = .invalidLiteral text ∧ Literal.value? kind text.toList = none := by
  unfold evaluate literal
  cases Literal.value? kind text.toList <;> simp [eq_comm]

end

theorem toInt_codePoint (c : Char) : (Value.codePoint c).toInt = c.toNat := by
  apply Int64.toInt_ofNat_of_lt
  have h := c.valid
  simp only [UInt32.isValidChar, Nat.isValidChar] at h
  show c.val.toNat < _
  omega

section
variable {n count : Int64} (h : 0 ≤ count.toInt ∧ count.toInt < 64)
include h

/-- The count of a shift is taken modulo 64, which leaves a legal one as it is. -/
theorem toNat_shiftCount : (count.toBitVec.smod 64).toNat = count.toInt.toNat := by
  have hmod : (count.toBitVec.smod 64).toInt = count.toInt := by
    rw [BitVec.toInt_smod, Int64.toInt_toBitVec, Int.fmod_eq_emod_of_nonneg]
    · exact Int.emod_eq_of_lt h.1 h.2
    · decide
  rw [BitVec.toInt_eq_toNat_cond] at hmod
  split at hmod <;> omega

theorem toInt_shiftLeft : (n <<< count).toInt = wrap64 (n.toInt * 2 ^ count.toInt.toNat) := by
  have hn : n.toInt = (n.toBitVec.toNat : Int).bmod (2 ^ 64) := by
    rw [← Int64.toInt_toBitVec, BitVec.toInt_eq_toNat_bmod]
  rw [← Int64.toInt_toBitVec, Int64.toBitVec_shiftLeft, BitVec.shiftLeft_eq',
    BitVec.toInt_shiftLeft,
    toNat_shiftCount h, Nat.shiftLeft_eq, wrap64, hn, Int.bmod_mul_bmod]
  push_cast
  rfl

theorem toInt_shiftRight : (n >>> count).toInt = n.toInt / 2 ^ count.toInt.toNat := by
  rw [← Int64.toInt_toBitVec, Int64.toBitVec_shiftRight, BitVec.sshiftRight_eq',
    BitVec.toInt_sshiftRight, toNat_shiftCount h, Int.shiftRight_eq_div_pow, Int64.toInt_toBitVec]
  push_cast
  rfl

end

/-! ## One node at a time -/

theorem toOption_bind {ε α β : Type} (x : Except ε α) (f : α → Except ε β) :
    (x >>= f).toOption = x.toOption.bind fun a => (f a).toOption := by
  cases x <;> rfl

theorem toOption_evaluateIntegral (e : ConstExpr) :
    (evaluateIntegral e).toOption = (evaluate e).toOption.bind Value.integral? := by
  unfold evaluateIntegral
  cases evaluate e with
  | error _ => rfl
  | ok v => cases v <;> rfl

theorem applyUnary_integral (op : UnaryOp) (v : Value) :
    ((applyUnary op v).toOption.bind Value.integral?).map Int64.toInt =
      (v.integral?.map Int64.toInt).bind op.reference? := by
  have hint (n : Int64) :
      ((applyUnary op (.integer n)).toOption.bind Value.integral?).map Int64.toInt =
      op.reference? n.toInt := by
    cases op with
    | plus => rfl
    | minus => exact congrArg some (Int64.toInt_neg n)
    | complement => exact congrArg some (Int64.toInt_not n)
    | not => rfl
  cases v with
  | integer n => exact hint n
  | character c =>
    -- a character is promoted, whatever the sign in front of it
    have hc : applyUnary op (.character c) = applyUnary op (.integer (Value.codePoint c)) := by
      cases op <;> rfl
    rw [hc]
    exact hint (Value.codePoint c)
  | floating _ => cases op <;> rfl
  | string _ => cases op <;> rfl

theorem shift_reference {op : BinaryOp} (hop : op = .shl ∨ op = .shr) (n count : Int64) :
    (shift op n count).toOption.map Int64.toInt = op.reference? n.toInt count.toInt := by
  have hrange : (0 ≤ count ∧ count < 64) ↔ 0 ≤ count.toInt ∧ count.toInt < 64 := by
    rw [Int64.le_iff_toInt_le, Int64.lt_iff_toInt_lt]
    rfl
  unfold shift BinaryOp.reference?
  by_cases h : 0 ≤ count.toInt ∧ count.toInt < 64
  · rw [if_pos (hrange.mpr h), if_pos h]
    obtain rfl | rfl := hop
    · exact congrArg some (toInt_shiftLeft h)
    · exact congrArg some (toInt_shiftRight h)
  · rw [if_neg (mt hrange.mp h), if_neg h]
    rfl

/-- The value of an expression, where it is a whole number. -/
def whole? (e : ConstExpr) : Option Int := (evaluateIntegral e).toOption.map Int64.toInt

theorem whole?_unary (op : UnaryOp) (e : ConstExpr) :
    whole? (.unary op e) = (whole? e).bind op.reference? := by
  unfold whole?
  rw [toOption_evaluateIntegral, toOption_evaluateIntegral, evaluate]
  cases evaluate e with
  | error _ => rfl
  | ok v => exact applyUnary_integral op v

theorem toOption_shiftOperand (op : BinaryOp) (v : Value) :
    (shiftOperand op v).toOption = v.integral? := by
  cases v <;> rfl

theorem whole?_binary (op : BinaryOp) (lhs rhs : ConstExpr) :
    whole? (.binary op lhs rhs) =
      (whole? lhs).bind fun n => (whole? rhs).bind (op.reference? n) := by
  unfold whole?
  simp only [toOption_evaluateIntegral]
  by_cases hop : op = .shl ∨ op = .shr
  · have hlast (x : Option Int64) :
        (x.bind fun n => (pure (Value.integer n) : Except Error Value).toOption.bind fun v =>
          v.integral?.map Int64.toInt) = x.map Int64.toInt := by
      cases x <;> rfl
    simp only [evaluate, if_pos hop, toOption_bind, toOption_shiftOperand, Option.bind_assoc,
      Option.bind_map, Option.map_bind, Function.comp_def, ← shift_reference hop, hlast]
  · simp only [evaluate, if_neg hop, BinaryOp.reference?_none hop, Option.bind_fun_none]
    rfl

theorem whole?_eq_reference? (e : ConstExpr) : whole? e = e.reference? := by
  induction e with
  | literal kind text =>
    unfold whole?
    rw [toOption_evaluateIntegral, evaluate, literal]
    cases kind with
    | integer =>
      simp only [Literal.value?, ConstExpr.reference?]
      cases Literal.integer? text.toList <;> rfl
    | character =>
      simp only [Literal.value?, ConstExpr.reference?]
      cases Literal.character? text.toList with
      | none => rfl
      | some c => exact congrArg some (toInt_codePoint c)
    | floating =>
      simp only [Literal.value?]
      cases Literal.floating? text.toList <;> rfl
    | string =>
      simp only [Literal.value?]
      cases Literal.string? text.toList <;> rfl
  | unary op e ih => rw [whole?_unary, ih, ConstExpr.reference?]
  | binary op lhs rhs ihl ihr => rw [whole?_binary, ihl, ihr, ConstExpr.reference?]
  | identifier _ => rfl
  | unsupported _ => rfl

/-! ## Every expression -/

theorem evaluateIntegral_twosComplement (e : ConstExpr) :
    (evaluateIntegral e).toOption.map Int64.toInt = e.reference? ∧
      ((∃ n, evaluateIntegral e = .ok n) ↔ ∀ s ∈ e.nodes, s.Allowed) := by
  have heq := whole?_eq_reference? e
  refine ⟨heq, ?_⟩
  rw [← ConstExpr.reference?_isSome, ← heq, whole?, Option.isSome_map]
  cases evaluateIntegral e <;> simp [Except.toOption]

/-- The least number is its own negation. -/
example : (ConstExpr.unary .minus
    (.binary .shl (.literal .integer "1") (.literal .integer "63"))).reference? =
      some (-2 ^ 63) := by
  cbv

end CythonDecls.Constant
