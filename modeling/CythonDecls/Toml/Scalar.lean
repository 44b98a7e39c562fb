import CythonDecls.Text.Numeral
import CythonDecls.Decimal.Reader
import CythonDecls.Toml.Basic

/-!
# Numbers, dates and words of TOML

Only the kind of these values is kept. What is read is whether the text is
one: digits with single underscores inside, integers of 64 signed bits, floats
that are not past the largest one, and dates and times that exist.
-/

namespace CythonDecls.Toml

open Text

/-- The digits of a run with `_` only between digits. -/
def plainDigits? (isDigit : Char → Bool) : List Char → Option (List Char)
  | [] => none
  | [c] => if isDigit c then some [c] else none
  | c :: '_' :: cs => if isDigit c then (plainDigits? isDigit cs).map (c :: ·) else none
  | c :: cs => if isDigit c then (plainDigits? isDigit cs).map (c :: ·) else none

/-- Digits of a decimal number: no zero in front of other digits. -/
def decimalDigits? (cs : List Char) : Option (List Char) :=
  match cs with
  | '0' :: _ :: _ => none
  | _ => plainDigits? Char.isDigit cs

def splitSign : List Char → Bool × List Char
  | '-' :: cs => (true, cs)
  | '+' :: cs => (false, cs)
  | cs => (false, cs)

def isPrefixed (radix : Nat) (cs : List Char) : Bool :=
  match plainDigits? (fun c => (digit? radix c).isSome) cs >>= digits? radix with
  | some n => n < signedBound
  | none => false

def isInteger (cs : List Char) : Bool :=
  match cs with
  | '0' :: 'x' :: cs => isPrefixed 16 cs
  | '0' :: 'o' :: cs => isPrefixed 8 cs
  | '0' :: 'b' :: cs => isPrefixed 2 cs
  | _ =>
    let (negative, cs) := splitSign cs
    match decimalDigits? cs >>= digits? 10 with
    | some n => if negative then n ≤ signedBound else n < signedBound
    | none => false

/-- A fraction, an exponent, or both, behind an integer. A float past the
largest one is none, unless it is negative. -/
def isFloat (cs : List Char) : Bool :=
  let (negative, body) := splitSign cs
  if body = "inf".toList ∨ body = "nan".toList then true
  else
    let isExponentMark (c : Char) : Bool := c = 'e' || c = 'E'
    let front := body.takeWhile (!isExponentMark ·)
    let exponent := body.dropWhile (!isExponentMark ·)
    let whole := front.takeWhile (· ≠ '.')
    let fraction := front.dropWhile (· ≠ '.')
    let plain := do
      let whole ← decimalDigits? whole
      let fraction ← match fraction with
        | [] => some []
        | _ :: digits => (plainDigits? Char.isDigit digits).map ('.' :: ·)
      let exponent ← match exponent with
        | [] => some []
        | _ :: digits =>
          let (below, digits) := splitSign digits
          (plainDigits? Char.isDigit digits).map fun ds => 'e' :: (if below then '-' :: ds else ds)
      return whole ++ fraction ++ exponent
    match plain >>= Decimal.read? with
    | some x => (!fraction.isEmpty || !exponent.isEmpty) && (negative || !x.isInf)
    | none => false

/-! ## Dates and times -/

/-- A number of exactly so many digits, and what follows. -/
def fixed? (count : Nat) (cs : List Char) : Option (Nat × List Char) :=
  let digits := cs.take count
  if digits.length = count ∧ digits.all Char.isDigit then
    some (Nat.ofDigitChars 10 digits 0, cs.drop count)
  else none

/-- A number of two digits in a range, and what follows. -/
def pair? (low high : Nat) (cs : List Char) : Option (Nat × List Char) :=
  (fixed? 2 cs).filter fun (n, _) => low ≤ n && n ≤ high

def mark? (c : Char) : List Char → Option (List Char)
  | d :: cs => if d = c then some cs else none
  | [] => none

def isLeap (year : Nat) : Bool := year % 4 = 0 && (year % 100 ≠ 0 || year % 400 = 0)

def daysOf (year month : Nat) : Nat :=
  if month = 2 then if isLeap year then 29 else 28
  else if month = 4 ∨ month = 6 ∨ month = 9 ∨ month = 11 then 30
  else 31

def day? (cs : List Char) : Option (List Char) := do
  let (year, cs) ← fixed? 4 cs
  let (month, cs) ← pair? 1 12 (← mark? '-' cs)
  let (_, cs) ← pair? 1 (daysOf year month) (← mark? '-' cs)
  return cs

/-- A time of day, and what follows; the second may be a leap second. -/
def time? (cs : List Char) : Option (List Char) := do
  let (_, cs) ← pair? 0 23 cs
  let (_, cs) ← pair? 0 59 (← mark? ':' cs)
  let (_, cs) ← pair? 0 60 (← mark? ':' cs)
  match cs with
  | '.' :: c :: cs => if c.isDigit then return cs.dropWhile Char.isDigit else none
  | cs => return cs

/-- The mark `Z`, or hours and minutes ahead or behind. -/
def isOffset : List Char → Bool
  | [] => true
  | ['Z'] => true
  | ['z'] => true
  | c :: cs =>
    (c = '+' || c = '-') && (match pair? 0 23 cs with
      | some (_, ':' :: cs) => (pair? 0 59 cs).any fun (_, rest) => rest.isEmpty
      | _ => false)

def isDate (cs : List Char) : Bool :=
  match day? cs with
  | some [] => true
  | some (c :: cs) =>
    (c = 'T' || c = 't' || c = ' ') && (match time? cs with
      | some rest => isOffset rest
      | none => false)
  | none => time? cs = some []

/-- The value of a word that is no string, array or table. -/
def scalar? (cs : List Char) : Option Value :=
  if cs = "true".toList then some (.boolean true)
  else if cs = "false".toList then some (.boolean false)
  else if isDate cs then some .date
  else if isInteger cs || isFloat cs then some .number
  else none

end CythonDecls.Toml
