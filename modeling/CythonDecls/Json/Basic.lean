import CythonDecls.Json.Number

/-!
# JSON values

A value keeps what a later reading may ask for: the fields of an object in
their order, repeats included, and a number as it was written, since `1.0`
and `1` are told apart when an integer is wanted. A text is absent where one
of its escapes names half of a surrogate pair alone: such a text has no
characters, and only a part of the input that nobody reads may hold one.
-/

namespace CythonDecls

inductive Json where
  | null
  | bool (value : Bool)
  | number (lexeme : String)
  | string (text : Option String)
  | array (items : List Json)
  | object (fields : List (Option String × Json))
  deriving Inhabited

namespace Json

def text (s : String) : Json := .string (some s)

def nat (n : Nat) : Json := .number (toString n)

def int (n : Int) : Json := .number (toString n)

def record (fields : List (String × Json)) : Json :=
  .object (fields.map fun (k, v) => (some k, v))

def ofOption {α : Type} (f : α → Json) : Option α → Json
  | none => .null
  | some a => f a

/-! ## Nesting -/

mutual
/-- Arrays and objects around the innermost one, itself included. -/
def depth : Json → Nat
  | .array items => itemsDepth items + 1
  | .object fields => fieldsDepth fields + 1
  | _ => 0

def itemsDepth : List Json → Nat
  | [] => 0
  | v :: vs => max v.depth (itemsDepth vs)

def fieldsDepth : List (Option String × Json) → Nat
  | [] => 0
  | (_, v) :: fs => max v.depth (fieldsDepth fs)
end

/-- The deepest nesting a reader of records takes. -/
def depthLimit : Nat := 127

/-! ## Numbers -/

/-- A lexeme of digits alone names a natural number. -/
def nat? : Json → Option Nat
  | .number lexeme =>
    if lexeme.toList.all Char.isDigit then some (Nat.ofDigitChars 10 lexeme.toList 0) else none
  | _ => none

/-! ## Values that can be read -/

mutual
/-- Every text has its characters and every number fits. -/
def sound : Json → Bool
  | .number lexeme => fits lexeme
  | .string text => text.isSome
  | .array items => itemsSound items
  | .object fields => fieldsSound fields
  | _ => true

def itemsSound : List Json → Bool
  | [] => true
  | v :: vs => v.sound && itemsSound vs

def fieldsSound : List (Option String × Json) → Bool
  | [] => true
  | (k, v) :: fs => k.isSome && v.sound && fieldsSound fs
end

/-- What a reader of records takes as a value: sound, and not nested too deep. -/
def readable (v : Json) : Bool := v.sound && v.depth ≤ depthLimit

end Json

end CythonDecls
