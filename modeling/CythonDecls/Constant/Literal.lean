import CythonDecls.Constant.Value
import CythonDecls.Decimal.Reader
import CythonDecls.Text.Blank
import CythonDecls.Text.Numeral

/-!
# C literals

The readers take the characters of a literal with white space around it and
give its value, or nothing where the text is no such literal.
-/

namespace CythonDecls.Constant.Literal

open Text

/-! ## Integers -/

def isIntegerSuffix (c : Char) : Bool := c = 'u' || c = 'U' || c = 'l' || c = 'L'

/-- The digits of an unsigned literal with their radix: `0x` opens a
hexadecimal one, and `0` before another character an octal one. -/
def radix (cs : List Char) : Nat × List Char :=
  match cs with
  | '0' :: 'x' :: digits => (16, digits)
  | '0' :: 'X' :: digits => (16, digits)
  | '0' :: c :: digits => (8, c :: digits)
  | _ => (10, cs)

/-- An optional `+` and digits with a value of at most 64 bits. -/
def numeral? (radix : Nat) (cs : List Char) : Option Nat :=
  let digits := match cs with
    | '+' :: cs => cs
    | _ => cs
  (digits? radix digits).filter (· < UInt64.size)

def magnitude? (cs : List Char) : Option Nat :=
  let (radix, digits) := radix (dropEnd isIntegerSuffix cs)
  numeral? radix digits

/-- Decimal, hexadecimal or octal, with a sign in front and `u`s and `l`s
behind. Values wrap around to 64 signed bits. -/
def integer? (cs : List Char) : Option Int64 :=
  match trim cs with
  | '-' :: cs => (magnitude? cs).map fun n => -Int64.ofNat n
  | cs => (magnitude? cs).map Int64.ofNat

/-! ## Floating numbers -/

def isFloatingSuffix (c : Char) : Bool := c = 'f' || c = 'F' || c = 'l' || c = 'L'

def floating? (cs : List Char) : Option Float :=
  Decimal.read? (dropEnd isFloatingSuffix (trim cs))

/-! ## Characters and strings -/

def simpleEscape? : Char → Option Char
  | 'n' => some '\n'
  | 't' => some '\t'
  | 'r' => some '\r'
  | 'a' => some '\x07'
  | 'b' => some '\x08'
  | 'f' => some '\x0c'
  | 'v' => some '\x0b'
  | '\\' => some '\\'
  | '\'' => some '\''
  | '"' => some '"'
  | '?' => some '?'
  | _ => none

def scalar? (n : Nat) : Option Char := if n.isValidChar then some (Char.ofNat n) else none

def isHex (c : Char) : Bool := (digit? 16 c).isSome

def isOctal (c : Char) : Bool := (digit? 8 c).isSome

/-- One character of a literal's inside, and what follows it. -/
def item? : List Char → Option (Char × List Char)
  | [] => none
  | '\\' :: 'x' :: cs => do
    let value ← digits? 16 (cs.takeWhile isHex)
    return (← scalar? value, cs.dropWhile isHex)
  | '\\' :: c :: cs =>
    if isOctal c then do
      let digits := (c :: cs).take 3 |>.takeWhile isOctal
      let value ← digits? 8 digits
      return (← scalar? value, (c :: cs).drop digits.length)
    else (simpleEscape? c).map (·, cs)
  | '\\' :: [] => none
  | c :: cs => some (c, cs)

/-- The characters that `n` items at most spell out. -/
def items? : Nat → List Char → Option (List Char)
  | _, [] => some []
  | 0, _ => none
  | n + 1, cs => do
    let (c, cs) ← item? cs
    return c :: (← items? n cs)

/-- Every item takes a character, so there are no more items than characters. -/
def unescape? (cs : List Char) : Option (List Char) := items? cs.length cs

/-- The literal without its encoding: `u8`, or one of `L`, `u` and `U`. -/
def dropEncoding (cs : List Char) : List Char :=
  match cs with
  | 'u' :: '8' :: cs => cs
  | 'L' :: cs => cs
  | 'u' :: cs => cs
  | 'U' :: cs => cs
  | _ => cs

def inside? (quote : Char) (cs : List Char) : Option (List Char) :=
  match dropEncoding (trim cs) with
  | [] => none
  | c :: cs => if c = quote ∧ cs.getLast? = some quote then some cs.dropLast else none

def string? (cs : List Char) : Option (List Char) := inside? '"' cs >>= unescape?

def character? (cs : List Char) : Option Char :=
  match inside? '\'' cs >>= unescape? with
  | some [c] => some c
  | _ => none

/-! ## All literals -/

def value? (kind : LiteralKind) (cs : List Char) : Option Value :=
  match kind with
  | .integer => (integer? cs).map .integer
  | .floating => (floating? cs).map .floating
  | .character => (character? cs).map .character
  | .string => (string? cs).map fun s => .string (String.ofList s)

end CythonDecls.Constant.Literal
