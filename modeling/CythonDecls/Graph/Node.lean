import CythonDecls.Graph.Module
import CythonDecls.Specifier
import CythonDecls.Tree.Basic

/-!
# Nodes of the declaration graph

A node is one declaration or type. Nodes name each other by handles, so cycles
through pointers are finite data. A struct, union or enum without fields or
values is opaque: its body is unknown.
-/

namespace CythonDecls

/-- How accessors may use a field. -/
inductive FieldMode where
  | read
  | write
  | readWrite
  deriving DecidableEq, Repr

def FieldMode.letters : FieldMode → String
  | .read => "r"
  | .write => "w"
  | .readWrite => "rw"

/-- A field of a struct or union. It is `inline` when its declaration defines
its type on the spot. -/
structure Field where
  name : String
  type : Handle
  mode : FieldMode
  inline : Bool
  deriving DecidableEq, Repr

structure Container where
  tag : Option String
  fields : List Field
  location : Option Location
  deriving DecidableEq, Repr

structure EnumValue where
  name : String
  value : Int64
  deriving DecidableEq

structure Enumeration where
  tag : Option String
  values : List EnumValue
  location : Option Location
  deriving DecidableEq

/-- A typedef, whose target is absent until it is known. -/
structure Typedef where
  name : String
  target : Option Handle
  location : Option Location
  deriving DecidableEq, Repr

structure Argument where
  name : Option String
  type : Handle
  deriving DecidableEq, Repr

structure Function where
  name : String
  returns : Handle
  arguments : List Argument
  variadic : Bool
  location : Option Location
  deriving DecidableEq, Repr

structure Variable where
  name : String
  type : Handle
  location : Option Location
  deriving DecidableEq, Repr

inductive Node where
  | fundamental (type : Fundamental)
  | pointer (target : Handle)
  | array (target : Handle) (dim : Option UInt64)
  | container (kind : ContainerKind) (body : Container)
  | enumeration (body : Enumeration)
  | typedef (decl : Typedef)
  | function (decl : Function)
  | object (decl : Variable)
  deriving DecidableEq

namespace Node

def kindName : Node → String
  | fundamental _ => "fundamental"
  | pointer _ => "pointer"
  | array .. => "array"
  | container kind _ => kind.keyword
  | enumeration _ => "enum"
  | typedef _ => "typedef"
  | function _ => "function"
  | object _ => "variable"

def isAggregate : Node → Bool
  | container .. => true
  | enumeration _ => true
  | _ => false

def container? : Node → Option Container
  | container _ c => some c
  | _ => none

def typedef? : Node → Option Typedef
  | typedef t => some t
  | _ => none

def tag? : Node → Option String
  | container _ c => c.tag
  | enumeration e => e.tag
  | _ => none

def location? : Node → Option Location
  | container _ c => c.location
  | enumeration e => e.location
  | typedef t => t.location
  | function f => f.location
  | object v => v.location
  | _ => none

/-- An aggregate without a body. -/
def isOpaque : Node → Bool
  | container _ c => c.fields.isEmpty
  | enumeration e => e.values.isEmpty
  | _ => false

def hasBody (n : Node) : Bool := n.isAggregate && !n.isOpaque

/-- The aggregate with a new tag; other nodes stay as they are. -/
def withTag (tag : String) : Node → Node
  | container kind c => .container kind { c with tag := some tag }
  | enumeration e => .enumeration { e with tag := some tag }
  | n => n

/-- What an aggregate without a tag is called in messages. -/
def anonymousName (n : Node) : String := s!"<anonymous {n.kindName}>"

end Node

end CythonDecls
