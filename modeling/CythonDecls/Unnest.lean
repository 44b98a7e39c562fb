import CythonDecls.Graph.Basic

/-!
# Unnesting

Cython has no struct bodies inside struct bodies. A field that defines its
type on the spot gets a typedef of that type instead, and the type moves in
front of the item that contains it, under a name made of the outer name and
its own.
-/

namespace CythonDecls

structure UnnestStats where
  containersExtracted : Nat
  typedefsCreated : Nat
  deriving DecidableEq, Repr

/-- A graph being unnested: what the current item gave up so far, in the order
of the output, and the counts. -/
structure Unnesting where
  graph : Graph
  extracted : List Handle
  stats : UnnestStats

namespace Unnesting

def mangle (outer inner : String) : String := s!"__{outer}_{inner}"

def field? (u : Unnesting) (c : Handle) (i : Nat) : Option Field :=
  (u.graph.container? c).bind (·.fields[i]?)

/-- Makes the typedef of an extracted type, and the `i`-th field of `c` a field
of that typedef. -/
def extract (u : Unnesting) (c : Handle) (i : Nat) (inner : Handle) (name : String) : Unnesting :=
  let typedef := u.graph.next
  let grown := u.graph.add (.typedef ⟨name ++ "_t", some inner, none⟩)
  let graph := match grown.modifyContainer c fun body =>
      { body with fields := body.fields.modify i fun f =>
        { f with type := typedef, inline := false } } with
    | .ok g => g
    | .error _ => grown
  { graph
    extracted := u.extracted ++ [inner, typedef]
    stats := ⟨u.stats.containersExtracted + 1, u.stats.typedefsCreated + 1⟩ }

/-- Unnests one field, and first the fields of its type by `inside`. -/
def field (inside : Handle → String → Unnesting → Except Fault Unnesting) (c : Handle)
    (outer : String) (u : Unnesting) (i : Nat) : Except Fault Unnesting :=
  match u.field? c i with
  | none => .ok u
  | some f =>
    if !f.inline then .ok u
    else do
      let n ← u.graph.get f.type
      if !n.hasBody then return u
      let name := mangle outer (n.tag?.getD f.name)
      let tagged := { u with graph := u.graph.setTag f.type name }
      let flat ← match n with
        | .container .. => inside f.type name tagged
        | _ => pure tagged
      return flat.extract c i f.type name

/-- Unnests the fields of a container, whose definitions nest less than `n` deep. -/
def container : Nat → Handle → String → Unnesting → Except Fault Unnesting
  | 0, _, _, _ => .error .endless
  | n + 1, c, outer, u =>
    (List.range ((u.graph.container? c).elim 0 (·.fields.length))).foldlM
      (field (container n) c outer) u

end Unnesting

namespace Graph

/-- The container that an item declares, with the name its parts are mangled
under. -/
def root? (g : Graph) (item : Handle) : Except Fault (Option (Handle × String)) := do
  match ← g.get item with
  | .container _ c => return c.tag.map (item, ·)
  | .typedef t =>
    match t.target with
    | none => return none
    | some target =>
      return (g.container? target).map fun c => (target, c.tag.getD t.name)
  | _ => return none

def unnestItem (g : Graph) (stats : UnnestStats) (item : Handle) : Except Fault Unnesting := do
  match ← g.root? item with
  | none => return ⟨g, [], stats⟩
  | some (c, outer) =>
    let u ← Unnesting.container (g.size + 1) c outer ⟨g, [], stats⟩
    return { u with graph := u.graph.mapModule (·.spliceBefore item u.extracted) }

/-- One step through the module list: an item that was moved in front of an
earlier one is done with. -/
def unnestStep (moved : Unnesting) (item : Handle) : Except Fault Unnesting :=
  if moved.extracted.contains item then .ok moved
  else do
    let u ← moved.graph.unnestItem moved.stats item
    return { u with extracted := moved.extracted ++ u.extracted }

def unnest (g : Graph) : Except Fault (Graph × UnnestStats) := do
  let u ← g.module.items.foldlM unnestStep ⟨g, [], ⟨0, 0⟩⟩
  return (u.graph, u.stats)

end Graph

end CythonDecls
