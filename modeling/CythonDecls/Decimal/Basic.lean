/-!
# Decimals and doubles

A decimal is digits at a power of ten. A natural number that has more binary
digits than a significand holds is rounded to the nearest one that fits, and
of two equally near to the one whose last kept digit is zero.
-/

namespace CythonDecls.Decimal

/-- A decimal `digits * 10 ^ exponent`. -/
structure Scaled where
  digits : Nat
  exponent : Int
  deriving DecidableEq, Repr

/-- The nearest number that is at most `bits` binary digits and zeros after them. -/
def roundToBits (bits n : Nat) : Nat :=
  let unit := Nat.pow 2 (n.log2 + 1 - bits)
  let kept := n / unit
  let low := n % unit
  if unit < 2 * low ∨ (unit = 2 * low ∧ kept % 2 = 1) then (kept + 1) * unit else kept * unit

/-- A natural number as a double has it, without a limit on its size. -/
def roundToDouble (n : Nat) : Nat := roundToBits 53 n

/-- The least power of two past every finite double. -/
def doubleBound : Nat := Nat.pow 2 1024

/-- The largest exponent whose power of ten is a finite double. -/
def doubleExponent : Nat := 308

end CythonDecls.Decimal
