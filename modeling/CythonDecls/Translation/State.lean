import CythonDecls.Constant.Evaluate
import CythonDecls.Graph.Basic

/-!
# The state of a translation

A translation fills a graph and keeps the names it has met: tags by kind,
typedefs and functions. What a failing walk has entered stays, so the state is
under the errors and not beside them.
-/

namespace CythonDecls

inductive TranslateError where
  | unknownType (name : String) (location : Option Location)
  | constant (enumerator : String) (source : Constant.Error)
  | graph (source : GraphError)
  | malformed (container field : String) (source : TranslateError)
  deriving DecidableEq, Repr

namespace TranslateError

def message : TranslateError → String
  | unknownType name location =>
    let place := match location with
      | some l => s!" at {l.text}"
      | none => ""
    s!"unknown type reference `{name}`{place}"
  | constant enumerator source =>
    s!"cannot evaluate enumerator `{enumerator}`: {source.message}"
  | graph source => s!"graph error: {source.message}"
  | malformed container field source =>
    s!"malformed container `{container}`: field `{field}`: {source.message}"

/-- An unknown type is reported with the innermost named member it is in. -/
def inMember (container field : String) : TranslateError → TranslateError
  | e@(unknownType ..) => malformed container field e
  | e => e

end TranslateError

structure Translator where
  graph : Graph
  typedefs : Table String Handle
  structs : Table String Handle
  unions : Table String Handle
  enums : Table String Handle
  functions : Table String Handle
  /-- Tags made up for anonymous definitions. -/
  invented : List String
  /-- Definitions met inside the current item, which go before it. -/
  hoisted : List Handle

namespace Translator

def start : Translator :=
  ⟨.empty, .empty, .empty, .empty, .empty, .empty, [], []⟩

def containers (t : Translator) : ContainerKind → Table String Handle
  | .struct => t.structs
  | .union => t.unions

def enterContainer (t : Translator) (kind : ContainerKind) (tag : String) (h : Handle) :
    Translator :=
  match kind with
  | .struct => { t with structs := t.structs.insert tag h }
  | .union => { t with unions := t.unions.insert tag h }

/-! ## Invented tags -/

def isTaken (t : Translator) (tag : String) : Bool :=
  t.invented.contains tag || t.structs.contains tag || t.unions.contains tag
    || t.enums.contains tag

/-- At most this many tags are taken. -/
def takenBound (t : Translator) : Nat :=
  t.invented.length + t.structs.entries.length + t.unions.entries.length
    + t.enums.entries.length

/-- The candidates for a tag: `base`, `base_2`, `base_3` and so on. -/
def candidate (base : String) (n : Nat) : String :=
  if n = 0 then base else s!"{base}_{n + 1}"

/-- The first candidate that is free. One more candidate than taken tags is
enough to find it. -/
def freeTag (t : Translator) (base : String) : String :=
  ((List.range (t.takenBound + 1)).map (candidate base)).find? (!t.isTaken ·) |>.getD base

end Translator

/-- A walk over a tree: it changes the state, and ends in a result or an error. -/
abbrev Walk := ExceptT TranslateError (StateM Translator)

namespace Walk

def add (n : Node) : Walk Handle := do
  let h := (← get).graph.next
  modify fun t => { t with graph := t.graph.add n }
  return h

def modifyGraph (f : Graph → Graph) : Walk Unit := modify fun t => { t with graph := f t.graph }

/-- Replaces the graph by the result of an operation that may refuse. -/
def tryGraph (f : Graph → Except GraphError Graph) : Walk Unit := do
  match f (← get).graph with
  | .ok g => modify fun t => { t with graph := g }
  | .error e => throw (.graph e)

/-- Marks a definition as one that goes before the current item. -/
def hoist (h : Handle) : Walk Unit :=
  modify fun t => if t.hoisted.contains h then t else { t with hoisted := t.hoisted ++ [h] }

/-- Appends an item to the module, behind the definitions met inside it. -/
def place (h : Handle) : Walk Unit := modify fun t =>
  let module := (t.hoisted.filter (· ≠ h)).foldl Module.push t.graph.module
  { t with graph := { t.graph with module := module.push h }, hoisted := [] }

end Walk

end CythonDecls
