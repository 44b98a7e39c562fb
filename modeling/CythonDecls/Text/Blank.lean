/-!
# White space

The characters that Unicode calls white space, and texts without the ones at
their ends.
-/

namespace CythonDecls.Text

def isBlank (c : Char) : Bool :=
  let n := c.toNat
  (0x9 ≤ n && n ≤ 0xD) || n = 0x20 || n = 0x85 || n = 0xA0 || n = 0x1680
    || (0x2000 ≤ n && n ≤ 0x200A) || n = 0x2028 || n = 0x2029 || n = 0x202F || n = 0x205F
    || n = 0x3000

/-- The list without its last characters that satisfy `p`. -/
def dropEnd (p : Char → Bool) (cs : List Char) : List Char := (cs.reverse.dropWhile p).reverse

def trim (cs : List Char) : List Char := dropEnd isBlank (cs.dropWhile isBlank)

/-- The rest of `cs` after `front`, if it begins with it. -/
def after? (front : List Char) (cs : List Char) : Option (List Char) :=
  if front.isPrefixOf cs then some (cs.drop front.length) else none

end CythonDecls.Text
