import CythonDecls.Decimal.Basic

/-!
# Numbers in JSON

The parts of a number as written, and whether its value is past the largest
double. The value is taken from a significand of one 64-bit word and a power
of ten, each rounded to a double before they are multiplied, so close to the
limit it may differ from the nearest double of the number as written.
-/

namespace CythonDecls.Json

/-- The parts of a number: sign, digits before the point, digits after it, and
the exponent. -/
structure NumberParts where
  negative : Bool
  whole : List Char
  fraction : List Char
  exponent : Int

/-- An optional `-`, digits without a needless zero in front, `.` and digits, then `e` or
`E` with an optional sign and digits. -/
def NumberParts.read? (cs : List Char) : Option NumberParts := do
  let (negative, cs) := match cs with
    | '-' :: cs => (true, cs)
    | cs => (false, cs)
  let whole := cs.takeWhile Char.isDigit
  let cs := cs.dropWhile Char.isDigit
  guard (whole = ['0'] ∨ (whole ≠ [] ∧ whole.head? ≠ some '0'))
  let (fraction, cs) ← match cs with
    | '.' :: cs =>
      let digits := cs.takeWhile Char.isDigit
      if digits.isEmpty then none else some (digits, cs.dropWhile Char.isDigit)
    | cs => some ([], cs)
  match cs with
  | [] => return ⟨negative, whole, fraction, 0⟩
  | e :: cs =>
    guard (e = 'e' ∨ e = 'E')
    let (below, digits) := match cs with
      | '-' :: cs => (true, cs)
      | '+' :: cs => (false, cs)
      | cs => (false, cs)
    guard (digits ≠ [] ∧ digits.all Char.isDigit)
    let size := Nat.ofDigitChars 10 digits 0
    return ⟨negative, whole, fraction, if below then -size else size⟩

/-! ## The value in one word and a power of ten -/

/-- Digits put behind `word` for as long as the result fits 64 bits, and the
digits that are left. -/
def fill (word : Nat) : List Char → Nat × List Char
  | [] => (word, [])
  | c :: cs =>
    let next := word * 10 + (c.toNat - '0'.toNat)
    if next < UInt64.size then fill next cs else (word, c :: cs)

/-- The number with as many of its digits as fill the word. A digit before the
point that does not fit counts as a place; one after it does not count. -/
def NumberParts.scaled (p : NumberParts) : Decimal.Scaled :=
  let (word, places) := fill 0 p.whole
  let (word, lost) := fill word p.fraction
  ⟨word, p.exponent + places.length + lost.length - p.fraction.length⟩

/-- The product of the digits and the power of ten, each a double, is past the
largest double. A power below one takes nothing past it. -/
def overflows (x : Decimal.Scaled) : Bool :=
  if x.digits = 0 ∨ x.exponent ≤ 0 then false
  else if Decimal.doubleExponent < x.exponent then true
  else
    let power := Nat.pow 10 x.exponent.toNat
    Decimal.doubleBound ≤
      Decimal.roundToDouble (Decimal.roundToDouble x.digits * Decimal.roundToDouble power)

/-- The lexeme is a number whose value fits a double. -/
def fits (lexeme : String) : Bool :=
  match NumberParts.read? lexeme.toList with
  | some p => !overflows p.scaled
  | none => false

end CythonDecls.Json
