import CythonDecls.Unnest

/-!
# Edits of a graph

What may be done to a graph, and what is answered. An operation on a node works
on the node in its place, so what it has changed before it fails would stay.
-/

namespace CythonDecls

inductive Edit where
  | add (n : Node)
  | fundamental (words : List String)
  | pointer (target : Handle)
  | array (target : Handle) (dim : Option UInt64)
  | assignTarget (h target : Handle)
  | appendField (h : Handle) (field : Field)
  | setTag (h : Handle) (tag : String)
  | push (h : Handle)
  | insert (index : Nat) (h : Handle)
  | spliceBefore (anchor : Handle) (hs : List Handle)
  | remove (h : Handle)
  | unnest

inductive Answer where
  | handle (h : Handle)
  | done
  | refused (e : GraphError)
  /-- Whether there was something to do. -/
  | changed (was : Bool)
  /-- Where an item stood. -/
  | stood (index : Option Nat)
  | unnested (stats : UnnestStats)
  deriving DecidableEq

/-- An error, or that there was nothing to change. -/
def Answer.isFailure : Answer → Bool
  | refused _ => true
  | changed was => !was
  | stood index => index.isNone
  | _ => false

def Typedef.assign (d : Typedef) (target : Handle) : Answer × Typedef :=
  if d.target.isSome then (.refused (.duplicateTarget d.name), d)
  else (.done, { d with target := some target })

def Node.assign (h : Handle) (target : Handle) : Node → Answer × Node
  | .typedef d => ((d.assign target).1, .typedef (d.assign target).2)
  | n => (.refused (.notTypedef h), n)

def Node.append (h : Handle) (field : Field) : Node → Answer × Node
  | .container kind c => (.done, .container kind { c with fields := c.fields ++ [field] })
  | n => (.refused (.notAggregate h), n)

def Node.tagWith (tag : String) : Node → Answer × Node
  | .container kind c => (.changed true, .container kind { c with tag := some tag })
  | .enumeration e => (.changed true, .enumeration { e with tag := some tag })
  | n => (.changed false, n)

namespace Graph

/-- Works on a node in its place; `absent` is the answer where there is none. -/
def atNode (g : Graph) (h : Handle) (f : Node → Answer × Node) (absent : Answer) :
    Answer × Graph :=
  match g.get? h with
  | some n => ((f n).1, g.set h (f n).2)
  | none => (absent, g)

def edit (g : Graph) : Edit → Except Fault (Answer × Graph)
  | .add n => .ok (.handle g.next, g.add n)
  | .fundamental words => .ok (.handle (g.fundamental words).1, (g.fundamental words).2)
  | .pointer target => .ok (.handle g.next, g.add (.pointer target))
  | .array target dim => .ok (.handle g.next, g.add (.array target dim))
  | .assignTarget h target => .ok (g.atNode h (Node.assign h target) (.refused (.notTypedef h)))
  | .appendField h field => .ok (g.atNode h (Node.append h field) (.refused (.notAggregate h)))
  | .setTag h tag => .ok (g.atNode h (Node.tagWith tag) (.changed false))
  | .push h => .ok (.changed !g.module.contains h, g.mapModule (·.push h))
  | .insert index h => .ok (.done, g.mapModule (·.insert index h))
  | .spliceBefore anchor hs => .ok (.done, g.mapModule (·.spliceBefore anchor hs))
  | .remove h => .ok (.stood (g.module.position? h), g.mapModule (·.remove h))
  | .unnest => do
    let (unnested, stats) ← g.unnest
    return (.unnested stats, unnested)

/-- Edits in a row, with their answers. -/
def edits (g : Graph) : List Edit → Except Fault (List (Edit × Answer) × Graph)
  | [] => .ok ([], g)
  | e :: es => do
    let (answer, g₁) ← g.edit e
    let (log, g') ← g₁.edits es
    return ((e, answer) :: log, g')

end Graph

def Edit.kind? : Edit → Option String
  | add n => some n.kindName
  | fundamental _ => some "fundamental"
  | pointer _ => some "pointer"
  | array .. => some "array"
  | _ => none

end CythonDecls
