import CythonDecls.Graph.Node
import CythonDecls.Pxd.Code

/-!
# Blocks of a `.pxd` file

A block is one declaration of the output, with the node it declares. Its lines
are a function of it.
-/

namespace CythonDecls.Pxd

inductive Block where
  /-- The mention of a tag ahead of its body. -/
  | forward (subject : Handle) (keyword tag : String)
  /-- A struct or union with its fields and their declarations. -/
  | container (subject : Handle) (head : String) (fields : List (Field × String))
  /-- An enum with its values. -/
  | enumeration (subject : Handle) (head : String) (values : List EnumValue)
  /-- A second name for a declared aggregate. -/
  | synonym (typedef subject : Handle) (declared name : String)
  | typedef (subject target : Handle) (declaration : String)
  | function (subject : Handle) (declaration : String)
  | object (subject type : Handle) (declaration : String)

namespace Block

/-- A head by itself, or with a colon and the body under it. -/
def withBody (head : String) (body : List String) : List Code :=
  if body.isEmpty then [.line head] else [.line (head ++ ":"), .indented (body.map .line)]

def code : Block → List Code
  | forward _ keyword tag => [.line s!"cdef {keyword} {tag}"]
  | container _ head fields => withBody head (fields.map (·.2))
  | enumeration _ head values => withBody head (values.map (·.name))
  | synonym _ _ declared name => [.line s!"ctypedef {declared} {name}"]
  | typedef _ _ declaration => [.line s!"ctypedef {declaration}"]
  | function _ declaration => [.line declaration]
  | object _ _ declaration => [.line declaration]

def lines (b : Block) : List String := layout b.code

end Block

/-- The blocks with an empty line between them. -/
def linesOfBlocks (bs : List Block) : List String := layout [.blocks (bs.map Block.lines)]

end CythonDecls.Pxd
