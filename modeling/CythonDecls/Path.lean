/-!
# Paths

A path is a text of pieces between slashes. Joining and taking parts work on
the text alone: nothing is looked up, and `..` is a piece like others.
-/

namespace CythonDecls

structure Path where
  text : String
  deriving DecidableEq, Repr

namespace Path

/-- The pieces between slashes; a slash at an end has an empty piece beside it. -/
def pieces (p : Path) : List String :=
  (p.text.toList.foldr (fun c (pieces : List (List Char)) =>
    if c = '/' then [] :: pieces
    else match pieces with
      | piece :: pieces => (c :: piece) :: pieces
      | [] => [[c]]) [[]]).map String.ofList

def isAbsolute (p : Path) : Bool := p.text.toList.head? = some '/'

/-- A slash joins the two texts unless the first is empty or ends in one. An
absolute path on the right stands for itself. -/
def join (p : Path) (next : String) : Path :=
  if isAbsolute ⟨next⟩ then ⟨next⟩
  else if p.text.isEmpty ∨ p.text.toList.getLast? = some '/' then ⟨p.text ++ next⟩
  else ⟨p.text ++ "/" ++ next⟩

/-- A piece that leads nowhere. -/
def idle (piece : String) : Bool := piece.isEmpty || piece = "."

def dropIdle (pieces : List String) : List String := (pieces.reverse.dropWhile idle).reverse

/-- The pieces up to the last one that leads somewhere. -/
def core (p : Path) : List String := dropIdle p.pieces

def parent? (p : Path) : Option Path :=
  if p.core.isEmpty then none
  else
    let above := "/".intercalate (dropIdle p.core.dropLast)
    some ⟨if above.isEmpty ∧ p.isAbsolute then "/" else above⟩

/-- The path, its parent, the parent of that and so on, at most `n` of them. -/
def ancestorsUpTo : Nat → Path → List Path
  | 0, _ => []
  | n + 1, p => p :: (p.parent?.elim [] (ancestorsUpTo n))

def ancestors (p : Path) : List Path := ancestorsUpTo (p.pieces.length + 1) p

/-- The last piece, unless it leads upwards. -/
def fileName? (p : Path) : Option String := p.core.getLast?.filter (· ≠ "..")

/-- A file name up to its last dot, unless that dot is its first character. -/
def withoutExtension (name : String) : String :=
  let front := (name.toList.reverse.dropWhile (· ≠ '.')).drop 1
  if front.isEmpty then name else String.ofList front.reverse

def stem? (p : Path) : Option String := p.fileName?.map withoutExtension

end Path

end CythonDecls
