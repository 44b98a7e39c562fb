/-!
# Handles and the module list

A handle names a node of the graph by its place in the arena. The module list
holds the handles of the top-level items in the order of the output; each edit
keeps a list without repeats free of them.
-/

namespace CythonDecls

structure Handle where
  index : Nat
  deriving DecidableEq, Repr, Inhabited

/-- Shown as `#3`. -/
def Handle.text (h : Handle) : String := s!"#{h.index}"

structure Module where
  items : List Handle
  deriving DecidableEq, Repr

namespace Module

def empty : Module := ⟨[]⟩

def contains (m : Module) (h : Handle) : Bool := m.items.contains h

def position? (m : Module) (h : Handle) : Option Nat := m.items.idxOf? h

def push (m : Module) (h : Handle) : Module := if m.contains h then m else ⟨m.items ++ [h]⟩

/-- Takes the first occurrence of an item out. -/
def remove (m : Module) (h : Handle) : Module := ⟨m.items.erase h⟩

/-- Puts an item at a place, or at the end when the list is shorter. An item
that is already there moves, and the place is the one in the list before that. -/
def insert (m : Module) (index : Nat) (h : Handle) : Module :=
  let place :=
    match m.position? h with
    | some p => if p < index then index - 1 else index
    | none => index
  let others := m.items.erase h
  ⟨others.take place ++ h :: others.drop place⟩

/-- Puts an item right before `anchor`, or at the end if that is no item. -/
def putBefore (m : Module) (anchor h : Handle) : Module :=
  match m.position? anchor with
  | some p => m.insert p h
  | none => m.push h

/-- Puts several items before `anchor`, in their order. -/
def spliceBefore (m : Module) (anchor : Handle) (hs : List Handle) : Module :=
  hs.foldl (·.putBefore anchor ·) m

end Module

end CythonDecls
