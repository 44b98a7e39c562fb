/-!
# Numerals

Digits of a radix up to sixteen, and the value of a list of them.
-/

namespace CythonDecls.Text

def digit? (radix : Nat) (c : Char) : Option Nat :=
  let n := c.toNat
  let value :=
    if '0'.toNat ≤ n ∧ n ≤ '9'.toNat then some (n - '0'.toNat)
    else if 'a'.toNat ≤ n ∧ n ≤ 'f'.toNat then some (n - 'a'.toNat + 10)
    else if 'A'.toNat ≤ n ∧ n ≤ 'F'.toNat then some (n - 'A'.toNat + 10)
    else none
  value.filter (· < radix)

/-- The number that a list of digit values writes, the highest first. -/
def positional (radix : Nat) (digits : List Nat) : Nat :=
  digits.foldl (fun value d => value * radix + d) 0

/-- The value of a list of digits, which is `none` for no digits. -/
def digits? (radix : Nat) (cs : List Char) : Option Nat :=
  if cs.isEmpty then none else (cs.mapM (digit? radix)).map (positional radix)

/-- The magnitude of the least 64-bit integer with a sign; that of the largest
is one less. -/
def signedBound : Nat := 0x8000000000000000

end CythonDecls.Text
