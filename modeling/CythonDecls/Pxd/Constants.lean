import CythonDecls.Graph.Basic

/-!
# The listing of enum constants

Every enum that is an item, or the direct target of a typedef item, is listed
once, where it is met first.
-/

namespace CythonDecls.Pxd

/-- The enum that an item declares. -/
def enumOf? (g : Graph) (item : Handle) : Except Fault (Option (Handle × Enumeration)) := do
  match ← g.get item with
  | .enumeration e => return some (item, e)
  | .typedef t =>
    match t.target with
    | none => return none
    | some target =>
      match ← g.get target with
      | .enumeration e => return some (target, e)
      | _ => return none
  | _ => return none

def enums (g : Graph) : Except Fault (List (Handle × Enumeration)) :=
  g.module.items.foldlM (fun (found : List (Handle × Enumeration)) item => do
    match ← enumOf? g item with
    | some (h, e) => return if found.any (·.1 = h) then found else found ++ [(h, e)]
    | none => return found) []

def constantLine (v : EnumValue) : String := s!"{v.name} = {v.value.toInt}"

def constants (g : Graph) : Except Fault (List String) := do
  return (← enums g).flatMap fun (_, e) => e.values.map constantLine

end CythonDecls.Pxd
