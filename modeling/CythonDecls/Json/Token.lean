import CythonDecls.Json.Basic

/-!
# JSON tokens

The scanner is a fold of one step over the characters, so scanning a
concatenation is scanning its parts in turn. A text is first a list of
escaped code units and plain characters, and becomes text when its surrogate
halves are paired.
-/

namespace CythonDecls.Json

inductive Token where
  | openArray
  | closeArray
  | openObject
  | closeObject
  | comma
  | colon
  | null
  | bool (value : Bool)
  | number (lexeme : String)
  | string (text : Option String)
  deriving DecidableEq

def blank (c : Char) : Bool := c = ' ' || c = '\t' || c = '\n' || c = '\r'

def Token.punctuation? : Char → Option Token
  | '[' => some .openArray
  | ']' => some .closeArray
  | '\x7b' => some .openObject
  | '\x7d' => some .closeObject
  | ',' => some .comma
  | ':' => some .colon
  | _ => none

/-! ## Texts -/

/-- A piece of a text: a character as it is, or a 16-bit unit from an escape. -/
inductive Piece where
  | char (c : Char)
  | unit (n : Nat)

def highHalf (n : Nat) : Bool := 0xD800 ≤ n && n < 0xDC00

def lowHalf (n : Nat) : Bool := 0xDC00 ≤ n && n < 0xE000

/-- The character of a surrogate pair. -/
def pairChar (high low : Nat) : Char :=
  Char.ofNat (0x10000 + (high - 0xD800) * 0x400 + (low - 0xDC00))

/-- The text of the pieces; a half without its other half has none. -/
def pieces : List Piece → Option (List Char)
  | [] => some []
  | .char c :: ps => (pieces ps).map (c :: ·)
  | .unit n :: ps =>
    if highHalf n then
      match ps with
      | .unit m :: ps => if lowHalf m then (pieces ps).map (pairChar n m :: ·) else none
      | _ => none
    else if lowHalf n then none
    else (pieces ps).map (Char.ofNat n :: ·)

def escape? : Char → Option Char
  | '"' => some '"'
  | '\\' => some '\\'
  | '/' => some '/'
  | 'b' => some '\x08'
  | 'f' => some '\x0c'
  | 'n' => some '\n'
  | 'r' => some '\r'
  | 't' => some '\t'
  | _ => none

def hexDigit? (c : Char) : Option Nat :=
  if '0' ≤ c ∧ c ≤ '9' then some (c.toNat - '0'.toNat)
  else if 'a' ≤ c ∧ c ≤ 'f' then some (c.toNat - 'a'.toNat + 10)
  else if 'A' ≤ c ∧ c ≤ 'F' then some (c.toNat - 'A'.toNat + 10)
  else none

/-! ## Words and numbers -/

/-- Characters of a number or of `null`, `true`, `false`. -/
def bareChar (c : Char) : Bool := c.isAlphanum || c = '-' || c = '+' || c = '.'

def Token.ofBare? (cs : List Char) : Option Token :=
  if cs = "null".toList then some .null
  else if cs = "true".toList then some (.bool true)
  else if cs = "false".toList then some (.bool false)
  else (NumberParts.read? cs).map fun _ => .number (String.ofList cs)

/-! ## The scanner -/

/-- Where the scanner stands; what it holds is last first. -/
inductive Mode where
  | between
  | bare (held : List Char)
  | text (held : List Piece)
  | escape (held : List Piece)
  | hex (held : List Piece) (left : Nat) (value : Nat)

structure Scanner where
  mode : Mode
  tokens : List Token

def Scanner.start : Scanner := ⟨.between, []⟩

def Scanner.emit (s : Scanner) (t : Token) : Scanner := ⟨.between, t :: s.tokens⟩

def Scanner.step (s : Scanner) (c : Char) : Option Scanner :=
  match s.mode with
  | .between =>
    if blank c then some s
    else if c = '"' then some ⟨.text [], s.tokens⟩
    else match Token.punctuation? c with
      | some t => some (s.emit t)
      | none => if bareChar c then some ⟨.bare [c], s.tokens⟩ else none
  | .bare held =>
    if bareChar c then some ⟨.bare (c :: held), s.tokens⟩
    else do
      let word ← Token.ofBare? held.reverse
      if blank c then some (s.emit word)
      else (Token.punctuation? c).map fun t => (s.emit word).emit t
  | .text held =>
    if c = '"' then some (s.emit (.string ((pieces held.reverse).map String.ofList)))
    else if c = '\\' then some ⟨.escape held, s.tokens⟩
    else if c < ' ' then none
    else some ⟨.text (.char c :: held), s.tokens⟩
  | .escape held =>
    if c = 'u' then some ⟨.hex held 3 0, s.tokens⟩
    else (escape? c).map fun d => ⟨.text (.char d :: held), s.tokens⟩
  | .hex held left value => do
    let value := value * 16 + (← hexDigit? c)
    match left with
    | 0 => some ⟨.text (.unit value :: held), s.tokens⟩
    | left + 1 => some ⟨.hex held left value, s.tokens⟩

def Scanner.run (s : Scanner) (cs : List Char) : Option Scanner := cs.foldlM Scanner.step s

/-- The tokens at the end of the input, in order; an open text has none. -/
def Scanner.finish (s : Scanner) : Option (List Token) :=
  match s.mode with
  | .between => some s.tokens.reverse
  | .bare held => (Token.ofBare? held.reverse).map fun t => (t :: s.tokens).reverse
  | _ => none

def scan (cs : List Char) : Option (List Token) := Scanner.start.run cs >>= Scanner.finish

end CythonDecls.Json
