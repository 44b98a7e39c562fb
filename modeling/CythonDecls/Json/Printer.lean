import CythonDecls.Json.Basic

/-!
# Printing JSON

The printed form puts every item and every field on a line of its own, two
spaces deeper than its container; an empty container is a pair of brackets.
-/

namespace CythonDecls.Json

def hexDigit (n : Nat) : Char := Nat.digitChar n

/-- A control character is written by its short escape where it has one, and
in four lower-case hexadecimal digits elsewhere. -/
def escapeChar (c : Char) : List Char :=
  if c = '"' then ['\\', '"']
  else if c = '\\' then ['\\', '\\']
  else if c = '\x08' then ['\\', 'b']
  else if c = '\t' then ['\\', 't']
  else if c = '\n' then ['\\', 'n']
  else if c = '\x0c' then ['\\', 'f']
  else if c = '\r' then ['\\', 'r']
  else if c < ' ' then ['\\', 'u', '0', '0', hexDigit (c.toNat / 16), hexDigit (c.toNat % 16)]
  else [c]

def quote (s : List Char) : List Char := '"' :: s.flatMap escapeChar ++ ['"']

/-- A text without characters is written as the empty text. -/
def printText (text : Option String) : List Char := quote (text.getD "").toList

/-- A new line, indented for `level` open containers. -/
def newline (level : Nat) : List Char := '\n' :: List.replicate (2 * level) ' '

mutual
def print (level : Nat) : Json → List Char
  | .null => "null".toList
  | .bool true => "true".toList
  | .bool false => "false".toList
  | .number lexeme => lexeme.toList
  | .string text => printText text
  | .array [] => "[]".toList
  | .array (v :: vs) =>
    '[' :: newline (level + 1) ++ print (level + 1) v ++ printItems (level + 1) vs
      ++ newline level ++ [']']
  | .object [] => ['\x7b', '\x7d']
  | .object ((k, v) :: fs) =>
    '\x7b' :: newline (level + 1) ++ printText k ++ [':', ' '] ++ print (level + 1) v
      ++ printFields (level + 1) fs ++ newline level ++ ['\x7d']

def printItems (level : Nat) : List Json → List Char
  | [] => []
  | v :: vs => ',' :: newline level ++ print level v ++ printItems level vs

def printFields (level : Nat) : List (Option String × Json) → List Char
  | [] => []
  | (k, v) :: fs =>
    ',' :: newline level ++ printText k ++ [':', ' '] ++ print level v ++ printFields level fs
end

def pretty (v : Json) : String := String.ofList (v.print 0)

end CythonDecls.Json
