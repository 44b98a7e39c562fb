import CythonDecls.Text.Invisible

/-!
# Quoted characters and strings

The shown form of a character stands between single quotes and that of a
string between double quotes. Each escapes its own quote and not the other's.
A character that does not show is written by its code point.
-/

namespace CythonDecls.Text

/-- A character between quotes of the kind `quote`. -/
def showChar (quote : Char) (c : Char) : List Char :=
  if c = '\x00' then ['\\', '0']
  else if c = '\t' then ['\\', 't']
  else if c = '\n' then ['\\', 'n']
  else if c = '\r' then ['\\', 'r']
  else if c = '\\' then ['\\', '\\']
  else if c = quote then ['\\', quote]
  else if isInvisible c then
    ['\\', 'u', '\x7b'] ++ Nat.toDigits 16 c.toNat ++ ['\x7d']
  else [c]

def quoted (quote : Char) (cs : List Char) : String :=
  String.ofList (quote :: cs.flatMap (showChar quote) ++ [quote])

def quotedChar (c : Char) : String := quoted '\'' [c]

def quotedString (s : String) : String := quoted '"' s.toList

end CythonDecls.Text
