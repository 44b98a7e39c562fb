import CythonDecls.Graph.Basic

/-!
# Declarators

A C declarator is built from the declared name outwards: a pointer puts `*` in
front, an array `[n]` and a function its arguments behind. Arrays and functions
bind tighter than pointers, so a pointer to one of them takes parentheses. What
remains at the end is the name of a type that needs no declarator.
-/

namespace CythonDecls.Pxd

/-- A graph with the names that its aggregates were declared under. -/
structure Declarator where
  graph : Graph
  names : Table Handle String

namespace Declarator

def bindsTighter : Node → Bool
  | .array .. => true
  | .function _ => true
  | _ => false

def plainName : Node → String
  | .fundamental t => t.cName
  | .typedef t => t.name
  | .function f => f.name
  | .object v => v.name
  | n => n.tag?.getD n.anonymousName

def typeName (d : Declarator) (h : Handle) : Except Fault String :=
  match d.names.find? h with
  | some name => .ok name
  | none => (d.graph.get h).map plainName

/-- Wraps the declarator `inner` of a pointer to `target`. -/
def pointerTo (target : Node) (inner : String) : String :=
  if bindsTighter target then s!"(*{inner})" else s!"*{inner}"

def dimText (dim : Option UInt64) : String := (dim.map fun n => toString n.toNat).getD ""

/-- A base type in front of a declarator, which may be empty. -/
def besideBase (base inner : String) : String :=
  if inner.isEmpty then base else s!"{base} {inner}"

/-- The texts of arguments with `...` behind them where more may come. -/
def argumentList (args : List String) (variadic : Bool) : String :=
  ", ".intercalate (if variadic then args ++ ["..."] else args)

/-- The type `h` around the declarator `inner`, through at most `n` nodes. -/
def build (d : Declarator) : Nat → Handle → String → Except Fault String
  | 0, _, _ => .error .endless
  | n + 1, h, inner => do
    match ← d.graph.get h with
    | .pointer target => build d n target (pointerTo (← d.graph.get target) inner)
    | .array target dim => build d n target s!"{inner}[{dimText dim}]"
    | .function f =>
      let args ← f.arguments.mapM fun a => build d n a.type (a.name.getD "")
      build d n f.returns s!"{inner}({argumentList args f.variadic})"
    | _ => return besideBase (← d.typeName h) inner

/-- A chain without repeats visits no more nodes than there are. -/
def bound (d : Declarator) : Nat := d.graph.size + 1

/-- The type `h` declared as `name`; no name gives an abstract declarator. -/
def declare (d : Declarator) (h : Handle) (name : String) : Except Fault String :=
  d.build d.bound h name

def arguments (d : Declarator) (f : Function) : Except Fault String := do
  let args ← f.arguments.mapM fun a => d.declare a.type (a.name.getD "")
  return argumentList args f.variadic

end Declarator

end CythonDecls.Pxd
