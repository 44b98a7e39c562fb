import CythonDecls.Specifier

/-!
# A reader for C declarators

The text of a declaration is cut into tokens, and a machine reads them from
left to right. In front of a name there is nothing but specifiers, `*` and
groups in parentheses; behind it, `[n]` and argument lists bind tighter than the
`*` in front, and the `)` of a group lets the `*` of that group take its turn.
Arguments are declarations in parentheses, so the machine keeps a stack of the
declarations that wait for one.

The token behind a `(` tells what it opens: a declarator begins with `*`, `(` or
`[`, and an argument with a word. A lone name in parentheses is read as the type
of an argument, as it is where it may name a type.
-/

namespace CythonDecls.Pxd

mutual
inductive CType where
  | base (name : String)
  | pointer (target : CType)
  | array (target : CType) (dim : Option UInt64)
  | function (returns : CType) (params : List Param) (variadic : Bool)

/-- A parameter; an abstract declarator has the empty name. -/
inductive Param where
  | mk (name : String) (type : CType)
end

inductive Derivation where
  | pointer
  | array (dim : Option UInt64)
  | function (params : List Param) (variadic : Bool)

def Derivation.of : Derivation → CType → CType
  | pointer, t => .pointer t
  | array dim, t => .array t dim
  | function params variadic, t => .function t params variadic

/-- The type that derivations, the nearest to the name first, make of `t`. -/
def derived (ds : List Derivation) (t : CType) : CType := ds.foldr Derivation.of t

/-! ## Tokens -/

inductive Token where
  | word (letters : List Char)
  | star
  | opening
  | closing
  | left
  | right
  | comma
  | blank
  deriving DecidableEq

def isPunctuation (c : Char) : Bool := "*()[], ".toList.contains c

def Token.cons (c : Char) (ts : List Token) : List Token :=
  match c, ts with
  | '*', ts => .star :: ts
  | '(', ts => .opening :: ts
  | ')', ts => .closing :: ts
  | '[', ts => .left :: ts
  | ']', ts => .right :: ts
  | ',', ts => .comma :: ts
  | ' ', ts => .blank :: ts
  | c, .word w :: ts => .word (c :: w) :: ts
  | c, ts => .word [c] :: ts

def tokens (cs : List Char) : List Token := cs.foldr Token.cons []

/-! ## Declarations -/

/-- A declaration as far as it was read. `stars` waits for the end of the group
that is open, and `outer` has the stars in front of each group. `dim` is there
inside of brackets. -/
structure Reading where
  specifiers : List String
  name : String
  derivations : List Derivation
  stars : Nat
  outer : List Nat
  dim : Option (Option UInt64)

namespace Reading

def start : Reading := ⟨[], "", [], 0, [], none⟩

/-- The derivations with those of the stars, which come last. -/
def settled (r : Reading) : List Derivation :=
  r.derivations ++ List.replicate r.stars .pointer

def dimension? (w : List Char) : Option UInt64 :=
  let n := Nat.ofDigitChars 10 w 0
  if w.all Char.isDigit ∧ n < UInt64.size then some (.ofNat n) else none

def ahead (r : Reading) : Bool := r.name = "" && r.derivations.isEmpty

/-- A type is specified by keywords, or by one word that is none. The word that
is not part of the specifiers is the declared name. -/
def word (r : Reading) (w : String) : Option Reading :=
  if r.specifiers = [] ∨ w ∈ Specifier.keywords then
    if r.specifiers.all Specifier.keywords.contains ∧ r.ahead ∧ r.stars = 0 ∧ r.outer = [] then
      some { r with specifiers := r.specifiers ++ [w] }
    else none
  else if r.ahead then some { r with name := w }
  else none

def finish (r : Reading) : Option Param :=
  if r.specifiers = [] ∨ r.specifiers = ["..."] ∨ r.outer ≠ [] ∨ r.dim ≠ none then none
  else some ⟨r.name, derived r.settled (.base (" ".intercalate r.specifiers))⟩

/-- The arguments, where `r` is the last of them: none at all, the three dots,
or one more. -/
def endArguments (r : Reading) (args : List Param) : Option Derivation :=
  match r.specifiers with
  | [] => if args.isEmpty then some (.function [] false) else none
  | ["..."] => some (.function args true)
  | _ => r.finish.map fun p => .function (args ++ [p]) false

/-- A group in front of the name, whose stars wait for its end. -/
def group (r : Reading) : Option Reading :=
  if r.ahead then some { r with stars := 0, outer := r.stars :: r.outer } else none

def next (r : Reading) (t : Token) : Option Reading :=
  match r.dim, t with
  | some none, .word w => (dimension? w).map fun n => { r with dim := some (some n) }
  | some dim, .right => some { r with derivations := r.derivations ++ [.array dim], dim := none }
  | some _, _ => none
  | none, .word w => r.word (.ofList w)
  | none, .blank => some r
  | none, .star => if r.ahead then some { r with stars := r.stars + 1 } else none
  | none, .left => some { r with dim := some none }
  | none, _ => none

end Reading

/-! ## The machine -/

/-- The declaration that is read, and those that wait for it to be an argument,
each with the arguments so far. Behind a `(` it is `opened` until it is known
what the parenthesis opens. -/
structure Machine where
  current : Reading
  waiting : List (Reading × List Param)
  opened : Bool

namespace Machine

def close (m : Machine) : Option Machine :=
  match m.current.outer, m.waiting with
  | stars :: outer, _ =>
    some { m with current :=
      { m.current with derivations := m.current.settled, stars := stars, outer := outer } }
  | [], (r, args) :: waiting =>
    (m.current.endArguments args).map fun d =>
      ⟨{ r with derivations := r.derivations ++ [d] }, waiting, false⟩
  | [], [] => none

/-- What the parenthesis in front of a token opens. -/
def enter (m : Machine) (t : Token) : Option Machine :=
  if t = .star ∨ t = .opening ∨ t = .left then
    m.current.group.map fun r => ⟨r, m.waiting, false⟩
  else some ⟨.start, (m.current, []) :: m.waiting, false⟩

/-- A token that is not behind an open parenthesis. -/
def take (m : Machine) (t : Token) : Option Machine :=
  match t, m.waiting with
  | .opening, _ =>
    if m.current.specifiers = [] ∨ m.current.dim ≠ none then none
    else some { m with opened := true }
  | .closing, _ => m.close
  | .comma, (r, args) :: waiting =>
    m.current.finish.map fun p => ⟨.start, (r, args ++ [p]) :: waiting, false⟩
  | .comma, [] => none
  | t, waiting => (m.current.next t).map fun r => ⟨r, waiting, false⟩

def step (m : Machine) (t : Token) : Option Machine :=
  if !m.opened then m.take t
  else if t = .blank then some m
  else (m.enter t).bind fun m => m.take t

def run (m : Machine) (ts : List Token) : Option Machine := ts.foldlM step m

def start : Machine := ⟨.start, [], false⟩

end Machine

/-- Reads a declaration: the name and the type. -/
def readDeclaration (text : String) : Option Param := do
  let m ← Machine.start.run (tokens text.toList)
  if m.waiting.isEmpty && !m.opened then m.current.finish else none

end CythonDecls.Pxd
