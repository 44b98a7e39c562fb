import CythonDecls.Graph.Node
import CythonDecls.Table

/-!
# The declaration graph

An arena of nodes, the node of each fundamental type by its canonical key, and
the module list. Nodes are added and changed, never removed, so a handle keeps
naming its node.
-/

namespace CythonDecls

inductive GraphError where
  | duplicateTarget (name : String)
  | notTypedef (handle : Handle)
  | notAggregate (handle : Handle)
  deriving DecidableEq, Repr

def GraphError.message : GraphError → String
  | duplicateTarget name => s!"typedef `{name}` already has a target"
  | notTypedef h => s!"declaration {h.text} is not a typedef"
  | notAggregate h => s!"declaration {h.text} is not a struct, union or enum"

/-- What stops a walk over a graph that was not built by adding nodes: a handle
without a node, or a chain of nodes without an end. -/
inductive Fault where
  | dangling (handle : Handle)
  | endless
  deriving DecidableEq, Repr

structure Graph where
  nodes : Array Node
  fundamentals : Table String Handle
  module : Module

namespace Graph

def empty : Graph := ⟨#[], Table.empty, Module.empty⟩

def size (g : Graph) : Nat := g.nodes.size

def get? (g : Graph) (h : Handle) : Option Node := g.nodes[h.index]?

def get (g : Graph) (h : Handle) : Except Fault Node :=
  match g.get? h with
  | some n => .ok n
  | none => .error (.dangling h)

def container? (g : Graph) (h : Handle) : Option Container := g.get? h >>= Node.container?

def isItem (g : Graph) (h : Handle) : Bool := g.module.contains h

/-! ## Adding nodes -/

/-- The handle that the next node gets. -/
def next (g : Graph) : Handle := ⟨g.size⟩

def add (g : Graph) (n : Node) : Graph := { g with nodes := g.nodes.push n }

/-- The one node of a fundamental type, whatever the order of its words. -/
def fundamental (g : Graph) (words : List String) : Handle × Graph :=
  let key := Specifier.canonicalKey words
  match g.fundamentals.find? key with
  | some h => (h, g)
  | none =>
    let grown := g.add (.fundamental (.ofKey key))
    (g.next, { grown with fundamentals := g.fundamentals.insert key g.next })

/-! ## Changing nodes -/

def set (g : Graph) (h : Handle) (n : Node) : Graph :=
  { g with nodes := g.nodes.setIfInBounds h.index n }

def assignTarget (g : Graph) (h target : Handle) : Except GraphError Graph :=
  match g.get? h with
  | some (.typedef t) =>
    match t.target with
    | some _ => .error (.duplicateTarget t.name)
    | none => .ok (g.set h (.typedef { t with target := some target }))
  | _ => .error (.notTypedef h)

def modifyContainer (g : Graph) (h : Handle) (f : Container → Container) :
    Except GraphError Graph :=
  match g.get? h with
  | some (.container kind c) => .ok (g.set h (.container kind (f c)))
  | _ => .error (.notAggregate h)

def appendField (g : Graph) (h : Handle) (field : Field) : Except GraphError Graph :=
  g.modifyContainer h fun c => { c with fields := c.fields ++ [field] }

/-- Tags an aggregate; any other node stays as it is. -/
def setTag (g : Graph) (h : Handle) (tag : String) : Graph :=
  match g.get? h with
  | some n => g.set h (n.withTag tag)
  | none => g

def mapModule (g : Graph) (f : Module → Module) : Graph := { g with module := f g.module }

end Graph

end CythonDecls
