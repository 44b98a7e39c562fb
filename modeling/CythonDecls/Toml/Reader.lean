import CythonDecls.Toml.Scalar

/-!
# Reading TOML

A reader takes characters from the front of the text. Loops are bounded by the
length of the text, and arrays and braces by the depth they may nest.
-/

namespace CythonDecls.Toml

abbrev Reader := StateT (List Char) Option

/-- Arrays and braces may nest less deep than this, and dotted keys have fewer
parts. -/
def depthBound : Nat := 80

namespace Reader

/-! ## Characters -/

def fail {α : Type} : Reader α := fun _ => none

def peek : Reader (Option Char) := do return (← get).head?

def skip (n : Nat) : Reader Unit := modify (·.drop n)

def startsWith (front : List Char) : Reader Bool := do return front.isPrefixOf (← get)

def expect (front : List Char) : Reader Unit := do
  if ← startsWith front then skip front.length else fail

def takeWhile (p : Char → Bool) : Reader (List Char) := do
  let cs ← get
  set (cs.dropWhile p)
  return cs.takeWhile p

def isSpace (c : Char) : Bool := c = ' ' || c = '\t'

def spaces : Reader Unit := modify (·.dropWhile isSpace)

/-- A character that may stand in comments and in strings of one line. -/
def isPlain (c : Char) : Bool := c = '\t' || (' ' ≤ c && c ≠ '\x7f')

def lineEnd : Reader Bool := do
  match ← get with
  | '\n' :: cs => set cs; return true
  | '\r' :: '\n' :: cs => set cs; return true
  | _ => return false

def comment : Reader Unit := modify fun cs =>
  match cs with
  | '#' :: cs => cs.dropWhile isPlain
  | cs => cs

/-- What may follow on the line of an entry or a header: nothing but a comment. -/
def restOfLine : Reader Unit := do
  spaces
  comment
  if (← get).isEmpty then return
  if ← lineEnd then return
  fail

/-- Spaces, line ends and comments, through at most `n` of them. -/
def gap : Nat → Reader Unit
  | 0 => return
  | n + 1 => do
    spaces
    if (← peek) = some '#' then
      comment
      if !(← lineEnd) then fail
      gap n
    else if ← lineEnd then gap n

def blankLines : Reader Unit := do gap (← get).length

/-! ## Strings -/

def escape : Reader Char := do
  match ← get with
  | 'b' :: cs => set cs; return '\x08'
  | 't' :: cs => set cs; return '\t'
  | 'n' :: cs => set cs; return '\n'
  | 'f' :: cs => set cs; return '\x0c'
  | 'r' :: cs => set cs; return '\r'
  | '"' :: cs => set cs; return '"'
  | '\\' :: cs => set cs; return '\\'
  | 'u' :: cs => set cs; codePoint 4
  | 'U' :: cs => set cs; codePoint 8
  | _ => fail
where
  codePoint (count : Nat) : Reader Char := do
    let digits := (← get).take count
    skip count
    match Text.digits? 16 digits with
    | some n => if digits.length = count ∧ n.isValidChar then return Char.ofNat n else fail
    | none => fail

/-- The rest of a string of one line in `quote`s, of at most `n` characters. -/
def line (quote : Char) : Nat → Reader (List Char)
  | 0 => fail
  | n + 1 => do
    match ← get with
    | [] => fail
    | c :: cs =>
      set cs
      if c = quote then return []
      else if c = '\\' ∧ quote = '"' then return (← escape) :: (← line quote n)
      else if isPlain c then return c :: (← line quote n)
      else fail

def isGap (c : Char) : Bool := isSpace c || c = '\n' || c = '\r'

/-- Every carriage return is followed by a newline. -/
def returnsEndLines : List Char → Bool
  | [] => true
  | '\r' :: '\n' :: cs => returnsEndLines cs
  | '\r' :: _ => false
  | _ :: cs => returnsEndLines cs

/-- What a backslash at the end of a line takes away: the rest of the line, its
end, and all space and line ends after that. -/
def continuation : Reader Unit := do
  let cs ← takeWhile isGap
  match cs.dropWhile isSpace with
  | [] => fail
  | _ => if returnsEndLines cs then return else fail

/-- At most five quotes end a string of many lines: two of its own, and three. -/
def closingBound : Nat := 5

/-- The rest of a string of many lines in `quote`s, of at most `n` characters. -/
def block (quote : Char) : Nat → Reader (List Char)
  | 0 => fail
  | n + 1 => do
    let cs ← get
    let quotes := (cs.takeWhile (· = quote)).length
    if 3 ≤ quotes then
      skip quotes
      if quotes ≤ closingBound then return List.replicate (quotes - 3) quote else fail
    else if ← lineEnd then return '\n' :: (← block quote n)
    else
      match cs with
      | [] => fail
      | c :: rest =>
        set rest
        if c = '\\' ∧ quote = '"' then
          if rest.head?.any isGap then
            continuation
            block quote n
          else return (← escape) :: (← block quote n)
        else if isPlain c then return c :: (← block quote n)
        else fail

def string (quote : Char) : Reader String := do
  let size := (← get).length
  if ← startsWith [quote, quote, quote] then
    skip 3
    let _ ← lineEnd
    let cs ← block quote size
    return String.ofList cs
  else
    skip 1
    return String.ofList (← line quote size)

/-! ## Keys -/

def isBareKey (c : Char) : Bool := c.isAlphanum || c = '_' || c = '-'

def keyPart : Reader String := do
  match ← peek with
  | some '"' => skip 1; return String.ofList (← line '"' (← get).length)
  | some '\'' => skip 1; return String.ofList (← line '\'' (← get).length)
  | _ =>
    let cs ← takeWhile isBareKey
    if cs.isEmpty then fail else return String.ofList cs

/-- The parts of a dotted key with the spaces around them, at most `n`. -/
def keyParts : Nat → Reader (List String)
  | 0 => fail
  | n + 1 => do
    spaces
    let part ← keyPart
    spaces
    if (← peek) = some '.' then
      skip 1
      return part :: (← keyParts n)
    else return [part]

def key : Reader (List String) := keyParts (depthBound - 1)

/-! ## Values -/

/-- A word that may be a number or a date. One space may stand between a day
and a time. -/
def word : Reader (List Char) := do
  let isWord (c : Char) : Bool :=
    c.isAlphanum || c = '_' || c = '-' || c = '+' || c = '.' || c = ':'
  let first ← takeWhile isWord
  match day? first, ← get with
  | some [], ' ' :: c :: _ =>
    if c.isDigit then
      skip 1
      return first ++ ' ' :: (← takeWhile isWord)
    else return first
  | _, _ => return first

/-- The rest of an array behind a value or the opening bracket, of at most `n`
values. -/
def items (value : Reader Value) : Nat → Reader (List Value)
  | 0 => fail
  | n + 1 => do
    blankLines
    if (← peek) = some ']' then
      skip 1
      return []
    let v ← value
    blankLines
    match ← peek with
    | some ',' => skip 1; return v :: (← items value n)
    | some ']' => skip 1; return [v]
    | _ => fail

/-- The rest of a table in braces behind the opening one or a comma, of at most
`n` entries. -/
def members (value : Reader Value) : Nat → Entries → Reader Entries
  | 0, _ => fail
  | n + 1, es => do
    let path ← key
    expect ['=']
    spaces
    let v ← value
    spaces
    match assign true path v es with
    | none => fail
    | some es =>
      match ← peek with
      | some ',' => skip 1; members value n es
      | some '\x7d' => skip 1; return es
      | _ => fail

/-- A value whose arrays and braces nest less than `n` deep. -/
def value : Nat → Reader Value
  | 0 => fail
  | n + 1 => do
    let size := (← get).length
    match ← peek with
    | some '"' => return .string (← string '"')
    | some '\'' => return .string (← string '\'')
    | some '[' =>
      if n = 0 then fail
      skip 1
      return .array false (← items (value n) size)
    | some '\x7b' =>
      if n = 0 then fail
      skip 1
      spaces
      if (← peek) = some '\x7d' then
        skip 1
        return .table .inline []
      return .table .inline (← members (value n) size [])
    | _ =>
      match scalar? (← word) with
      | some v => return v
      | none => fail

/-! ## Documents -/

/-- The document so far, and the path of the table that is open. -/
structure Document where
  entries : Entries
  path : List String

def keep (result : Option Entries) (path : List String) : Reader Document :=
  match result with
  | some entries => return ⟨entries, path⟩
  | none => fail

/-- A header: its path in one pair of brackets or two. -/
def header (d : Document) : Reader Document := do
  let double ← startsWith ['[', '[']
  let brackets := if double then 2 else 1
  skip brackets
  let path ← key
  expect (List.replicate brackets ']')
  restOfLine
  match path.getLast? with
  | none => fail
  | some k =>
    let opened := if double then openItem k else openTable k
    keep (atPath path.dropLast opened d.entries) path

def entry (d : Document) : Reader Document := do
  let path ← key
  expect ['=']
  spaces
  let v ← value depthBound
  restOfLine
  keep (atPath d.path (assign true path v) d.entries) d.path

/-- The lines of a document, at most `n`. -/
def lines : Nat → Document → Reader Document
  | 0, _ => fail
  | n + 1, d => do
    spaces
    match ← peek with
    | none => return d
    | some '[' => lines n (← header d)
    | some '#' => restOfLine; lines n d
    | some '\n' => restOfLine; lines n d
    | some '\r' => restOfLine; lines n d
    | some _ => lines n (← entry d)

end Reader

/-- The entries of a document. A byte order mark may stand in front. -/
def read? (s : String) : Option Entries :=
  let cs := match s.toList with
    | '\ufeff' :: cs => cs
    | cs => cs
  (Reader.lines (cs.length + 1) ⟨[], []⟩ cs).map (·.1.entries)

end CythonDecls.Toml
