/-!
# Type specifiers

C writes the words of a fundamental type in any order and lets some be left
out. All spellings of one type have one canonical key, and the key names the
type: one of the types of the table, or an extension of the compiler.
-/

namespace CythonDecls

inductive Fundamental where
  | char
  | unsignedChar
  | short
  | unsignedShort
  | int
  | unsignedInt
  | long
  | unsignedLong
  | longLong
  | unsignedLongLong
  | float
  | double
  | longDouble
  | void
  | extension (key : String)
  deriving DecidableEq, Repr

namespace Fundamental

/-- The types that have a key of their own. -/
def table : List (String × Fundamental) :=
  [("char", .char), ("unsigned char", .unsignedChar), ("short", .short),
    ("unsigned short", .unsignedShort), ("int", .int), ("unsigned int", .unsignedInt),
    ("long", .long), ("unsigned long", .unsignedLong), ("long long", .longLong),
    ("unsigned long long", .unsignedLongLong), ("float", .float), ("double", .double),
    ("long double", .longDouble), ("void", .void)]

def ofKey (key : String) : Fundamental := (table.lookup key).getD (.extension key)

/-- The C spelling, which is also the key. -/
def cName : Fundamental → String
  | .char => "char"
  | .unsignedChar => "unsigned char"
  | .short => "short"
  | .unsignedShort => "unsigned short"
  | .int => "int"
  | .unsignedInt => "unsigned int"
  | .long => "long"
  | .unsignedLong => "unsigned long"
  | .longLong => "long long"
  | .unsignedLongLong => "unsigned long long"
  | .float => "float"
  | .double => "double"
  | .longDouble => "long double"
  | .void => "void"
  | .extension key => key

end Fundamental

/-! ## Canonical keys -/

namespace Specifier

/-- What a list of specifiers says: `rest` holds the words other than the
signs and the lengths, in canonical order. -/
structure Normal where
  unsigned : Bool
  longs : Nat
  short : Bool
  rest : List String
  deriving DecidableEq, Repr

def isModifier (w : String) : Bool :=
  w = "signed" || w = "unsigned" || w = "long" || w = "short"

/-- Words in the order of their code points, which is that of their bytes, with
`_Complex` behind all others. -/
def before (a b : String) : Bool :=
  if a = "_Complex" then b = "_Complex" else b = "_Complex" || decide (a ≤ b)

/-- The word `int` says nothing beside a length and is understood where nothing else
is left. -/
def base (sized : Bool) (words : List String) : List String :=
  if sized then words.filter (· ≠ "int")
  else if words.isEmpty then ["int"]
  else words

def normal (words : List String) : Normal :=
  let longs := words.count "long"
  let short := words.contains "short"
  { unsigned := words.contains "unsigned"
    longs
    short
    rest := (base (short || 0 < longs) (words.filter (!isModifier ·))).mergeSort before }

def Normal.words (n : Normal) : List String :=
  (if n.unsigned then ["unsigned"] else []) ++ List.replicate n.longs "long"
    ++ (if n.short then ["short"] else []) ++ n.rest

/-- The key that all spellings of one type share. -/
def canonicalKey (words : List String) : String := " ".intercalate (normal words).words

/-! ## Recognising specifiers -/

def keywords : List String :=
  ["void", "char", "short", "int", "long", "float", "double", "signed", "unsigned", "_Bool",
    "_Complex"]

/-- Names that C keeps for the compiler: `_` and then `_` or a capital letter. -/
def isReserved (name : String) : Bool :=
  match name.toList with
  | '_' :: c :: _ => c = '_' || c.isUpper
  | _ => false

/-- The words spell a fundamental type: keywords only, or one reserved name. -/
def isSequence (words : List String) : Bool :=
  !words.isEmpty && words.all keywords.contains
    || (match words with
      | [name] => isReserved name
      | _ => false)

end Specifier

end CythonDecls
