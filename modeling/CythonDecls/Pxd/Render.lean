import CythonDecls.Pxd.Block
import CythonDecls.Pxd.Declarator

/-!
# Rendering the module list

Each item becomes blocks, in the order of the module list. A tag that a block
mentions before its body came is introduced by a block of its own. A typedef
of an aggregate that nobody else declares declares it.
-/

namespace CythonDecls.Pxd

/-- Keeps the items of files whose names end as given, and the items without a
location. -/
structure Filter where
  header : Option String

def Filter.includes (f : Filter) (n : Node) : Bool :=
  match f.header, n.location? with
  | some header, some location => header.toList.isSuffixOf location.file.toList
  | _, _ => true

/-- The blocks so far, the name of each aggregate met, and which of them were
declared in full or introduced. -/
structure Rendering where
  blocks : List Block
  names : Table Handle String
  defined : List Handle
  forwarded : List Handle

namespace Rendering

def start : Rendering := ⟨[], .empty, [], []⟩

def push (r : Rendering) (b : Block) : Rendering := { r with blocks := r.blocks ++ [b] }

/-- Notes the full declaration of an aggregate under a name. -/
def define (r : Rendering) (h : Handle) (name : String) : Rendering :=
  { r with names := r.names.insert h name, defined := h :: r.defined }

end Rendering

def keyword : Node → String
  | .container kind _ => kind.keyword
  | .enumeration _ => "enum"
  | _ => "struct"

/-! ## Aggregates behind a type -/

/-- The aggregates that a type mentions, through at most `n` pointers, arrays
and functions. Typedefs are not followed. -/
def collect (g : Graph) : Nat → List Handle → Handle → Except Fault (List Handle)
  | 0, _, _ => .error .endless
  | n + 1, found, h => do
    match ← g.get h with
    | .pointer target => collect g n found target
    | .array target _ => collect g n found target
    | .function f =>
      let found ← collect g n found f.returns
      (f.arguments.map (·.type)).foldlM (collect g n) found
    | .container .. => return if found.contains h then found else found ++ [h]
    | .enumeration _ => return if found.contains h then found else found ++ [h]
    | _ => return found

/-- The aggregates that some types mention, each once, in the order met. -/
def mentioned (g : Graph) (types : List Handle) : Except Fault (List Handle) :=
  types.foldlM (collect g (g.size + 1)) []

namespace Rendering

/-- Introduces a tag, unless it is the one being declared, or is known. -/
def forwardOne (g : Graph) (owner : Handle) (r : Rendering) (h : Handle) :
    Except Fault Rendering := do
  if h = owner ∨ r.defined.contains h ∨ r.forwarded.contains h then return r
  let n ← g.get h
  match n.tag? with
  | none => return r
  | some tag =>
    return { r with
      blocks := r.blocks ++ [.forward h (keyword n) tag]
      names := r.names.insert h tag
      forwarded := h :: r.forwarded }

/-- Introduces the tags that `types` mention, while `owner` is declared. -/
def forward (g : Graph) (r : Rendering) (types : List Handle) (owner : Handle) :
    Except Fault Rendering := do
  (← mentioned g types).foldlM (forwardOne g owner) r

def declarator (g : Graph) (r : Rendering) : Declarator := ⟨g, r.names⟩

/-! ## Items -/

/-- A struct or union in full, after the tags that its fields mention. -/
def container (g : Graph) (r : Rendering) (h : Handle) (head : String) (c : Container) :
    Except Fault Rendering := do
  let r ← r.forward g (c.fields.map (·.type)) h
  let fields ← c.fields.mapM fun f => return (f, ← (r.declarator g).declare f.type f.name)
  return r.push (.container h head fields)

/-- A typedef. Where its target is an aggregate that is neither an item nor
declared yet, the typedef declares it: under its tag, or else under the
typedef's own name. -/
def typedef (g : Graph) (r : Rendering) (h : Handle) (t : Typedef) : Except Fault Rendering := do
  match t.target with
  | none => return r
  | some target =>
    let n ← g.get target
    if n.isAggregate ∧ ¬ g.isItem target ∧ ¬ r.defined.contains target then
      let declared := n.tag?.getD t.name
      let intro := if n.tag?.isSome then "cdef" else "ctypedef"
      let head := s!"{intro} {keyword n} {declared}"
      let r := r.define target declared
      let r ← match n with
        | .container _ c => r.container g target head c
        | .enumeration e => pure (r.push (.enumeration target head e.values))
        | _ => pure r
      return if declared = t.name then r else r.push (.synonym h target declared t.name)
    else
      let r ← r.forward g [target] h
      if n.isAggregate ∧ (← (r.declarator g).typeName target) = t.name then return r
      return r.push (.typedef h target (← (r.declarator g).declare target t.name))

def item (g : Graph) (r : Rendering) (h : Handle) : Except Fault Rendering := do
  match ← g.get h with
  | .container kind c =>
    match c.tag with
    | none => return r
    | some tag => (r.define h tag).container g h s!"cdef {kind.keyword} {tag}" c
  | .enumeration e =>
    match e.tag with
    | none =>
      return if e.values.isEmpty then r else r.push (.enumeration h "cdef enum" e.values)
    | some tag => return (r.define h tag).push (.enumeration h s!"cdef enum {tag}" e.values)
  | .typedef t => r.typedef g h t
  | .function f =>
    let r ← r.forward g (f.returns :: f.arguments.map (·.type)) h
    return r.push (.function h (← (r.declarator g).declare h f.name))
  | .object v =>
    let r ← r.forward g [v.type] h
    return r.push (.object h v.type (← (r.declarator g).declare v.type v.name))
  | _ => return r

def filteredItem (g : Graph) (filter : Filter) (r : Rendering) (h : Handle) :
    Except Fault Rendering := do
  if filter.includes (← g.get h) then r.item g h else return r

end Rendering

def blocks (g : Graph) (filter : Filter) : Except Fault (List Block) := do
  return (← g.module.items.foldlM (Rendering.filteredItem g filter) .start).blocks

def render (g : Graph) (filter : Filter) : Except Fault (List String) :=
  (blocks g filter).map linesOfBlocks

end CythonDecls.Pxd
