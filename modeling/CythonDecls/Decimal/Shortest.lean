import CythonDecls.Decimal.Basic

/-!
# Shortest decimals

A finite double `m * 2 ^ q` stands for every real number that rounds to it.
Its shortest decimal is the number in that interval with the fewest digits,
and of several the nearest to the double; of two equally near, the upper one.

For each count of digits only the two neighbours of the value on that
decimal grid are tried: when a point of the grid lies in the interval, so does
one of them.
-/

namespace CythonDecls.Decimal

/-- A positive value and the ends of its rounding interval over one
denominator; the ends belong to it when `closed`. -/
structure Interval where
  low : Nat
  value : Nat
  high : Nat
  denominator : Nat
  closed : Bool

/-- The interval of `significand * 2 ^ exponent`. Below the least significand
of an exponent the doubles lie twice as dense. -/
def Interval.ofDouble (significand : Nat) (exponent : Int) (dense : Bool) : Interval :=
  let scale := Nat.pow 2 (exponent - 2).toNat
  { low := (4 * significand - if dense then 1 else 2) * scale
    value := 4 * significand * scale
    high := (4 * significand + 2) * scale
    denominator := Nat.pow 2 (2 - exponent).toNat
    closed := significand % 2 = 0 }

def Interval.contains (i : Interval) (d : Scaled) : Bool :=
  let point := d.digits * Nat.pow 10 d.exponent.toNat * i.denominator
  let unit := Nat.pow 10 (-d.exponent).toNat
  if i.closed then i.low * unit ≤ point && point ≤ i.high * unit
  else i.low * unit < point && point < i.high * unit

/-- More decimal places than any double's leading zeros. -/
def placesBound : Nat := 400

/-- The power of ten just above the value. -/
def Interval.magnitude (i : Interval) : Int :=
  (Nat.toDigits 10 (i.value * Nat.pow 10 placesBound / i.denominator)).length - placesBound

/-- The better of the two neighbours of the value on the grid of
`10 ^ exponent`, if one is in the interval. -/
def Interval.onGrid? (i : Interval) (exponent : Int) : Option Scaled :=
  let num := i.value * Nat.pow 10 (-exponent).toNat
  let den := i.denominator * Nat.pow 10 exponent.toNat
  let below : Scaled := ⟨num / den, exponent⟩
  let above : Scaled := ⟨num / den + 1, exponent⟩
  match i.contains below, i.contains above with
  | true, true => some (if num % den * 2 < den then below else above)
  | true, false => some below
  | false, true => some above
  | false, false => none

/-- Seventeen digits always reach the interval of a double. -/
def Interval.shortest (i : Interval) : Scaled :=
  ((List.range 17).findSome? fun (n : Nat) => i.onGrid? (i.magnitude - (n + 1))).getD ⟨0, 0⟩

/-! ## Doubles -/

/-- The digits of a decimal without an exponent: zeros fill the places up to
the point, and none stand at the end of a fraction. -/
def Scaled.text (d : Scaled) : List Char :=
  let digits := Nat.toDigits 10 d.digits
  if 0 ≤ d.exponent then digits ++ List.replicate d.exponent.toNat '0'
  else
    let places := (-d.exponent).toNat
    let padded := List.replicate (places + 1 - digits.length) '0' ++ digits
    let whole := padded.take (padded.length - places)
    let fraction := ((padded.drop (padded.length - places)).reverse.dropWhile (· = '0')).reverse
    if fraction.isEmpty then whole else whole ++ '.' :: fraction

def signBit : Nat := 0x8000000000000000

/-- The leading bit of a significand, which is not stored. -/
def hiddenBit : Nat := 0x10000000000000

/-- A double of the given bits, shown by its shortest decimal. -/
def textOfBits (bits : Nat) : String :=
  let negative := signBit ≤ bits
  let exponent : Nat := bits / hiddenBit % 2048
  let fraction : Nat := bits % hiddenBit
  let sign := if negative then "-" else ""
  if exponent = 2047 then if fraction = 0 then sign ++ "inf" else "NaN"
  else if exponent = 0 ∧ fraction = 0 then sign ++ "0"
  else
    let interval :=
      if exponent = 0 then Interval.ofDouble fraction (-1074) false
      else Interval.ofDouble (hiddenBit + fraction) ((exponent : Int) - 1075)
        (fraction = 0 && 1 < exponent)
    sign ++ String.ofList interval.shortest.text

def text (x : Float) : String := textOfBits x.toBits.toNat

end CythonDecls.Decimal
