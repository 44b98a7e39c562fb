/-!
# Reading decimals

A decimal is a sign, digits around a point with at least one digit, and an
exponent; `inf`, `infinity` and `nan` are read in any case. The value is the
nearest double.
-/

namespace CythonDecls.Decimal

/-- A decimal as written, without its sign. -/
structure Written where
  whole : List Char
  fraction : List Char
  exponent : Int

/-- The letter `e` or `E`, a sign, and digits. -/
def exponent? : List Char → Option Int
  | [] => some 0
  | e :: cs =>
    let (below, digits) := match cs with
      | '-' :: cs => (true, cs)
      | '+' :: cs => (false, cs)
      | cs => (false, cs)
    if (e = 'e' ∨ e = 'E') ∧ digits ≠ [] ∧ digits.all Char.isDigit then
      let size := Nat.ofDigitChars 10 digits 0
      some (if below then -size else size)
    else none

def Written.read? (cs : List Char) : Option Written := do
  let whole := cs.takeWhile Char.isDigit
  let cs := cs.dropWhile Char.isDigit
  let (fraction, cs) := match cs with
    | '.' :: cs => (cs.takeWhile Char.isDigit, cs.dropWhile Char.isDigit)
    | cs => ([], cs)
  guard (whole ≠ [] ∨ fraction ≠ [])
  return ⟨whole, fraction, ← exponent? cs⟩

/-- The nearest double. Sizes far outside the range of doubles are settled
before any power of ten is taken. -/
def Written.value (w : Written) : Float :=
  let digits := (w.whole ++ w.fraction).dropWhile (· = '0')
  let shift := w.exponent - w.fraction.length
  let places := digits.length + shift
  if digits.isEmpty ∨ places < -400 then 0
  else if 400 < places then 1 / 0
  else Float.ofScientific (Nat.ofDigitChars 10 digits 0) (shift < 0) shift.natAbs

def unsigned? (cs : List Char) : Option Float :=
  let word := cs.map Char.toLower
  if word = "inf".toList ∨ word = "infinity".toList then some (1 / 0)
  else if word = "nan".toList then some (0 / 0)
  else (Written.read? cs).map Written.value

def read? : List Char → Option Float
  | '-' :: cs => (unsigned? cs).map (-·)
  | '+' :: cs => unsigned? cs
  | cs => unsigned? cs

end CythonDecls.Decimal
