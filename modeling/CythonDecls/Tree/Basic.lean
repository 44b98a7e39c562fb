import CythonDecls.Tree.ConstExpr

/-!
# Parse trees of C headers

A front end writes one `SourceUnit` per preprocessed header. A struct or union
is one notion with two keywords, and its specifier is a reference when
`members` is absent and a body otherwise. Declarations carry locations, types
do not.
-/

namespace CythonDecls

/-- The two keywords that open a list of fields. -/
inductive ContainerKind where
  | struct
  | union
  deriving DecidableEq, Repr

def ContainerKind.keyword : ContainerKind → String
  | .struct => "struct"
  | .union => "union"

/-- A construct that is known by name only and produces nothing. -/
structure Ignored where
  name : String
  location : Option Location
  deriving DecidableEq, Repr

mutual
/-- A type as a declarator writes it. -/
inductive TypeExpr where
  | pointer (target : TypeExpr)
  | array (target : TypeExpr) (dim : Option UInt64)
  | identifier (names : List String)
  | container (kind : ContainerKind) (spec : ContainerSpec)
  | enumeration (spec : EnumSpec)
  | function (signature : Signature)

structure ContainerSpec where
  tag : Option String
  members : Option (List Member)
  location : Option Location

inductive Member where
  | declaration (decl : Declaration)
  | ignored (what : Ignored)

/-- A declared name with its type; parameters and members may be unnamed. -/
structure Declaration where
  name : Option String
  type : TypeExpr
  location : Option Location

structure Signature where
  returns : TypeExpr
  params : List Declaration
  variadic : Bool
end

structure TypedefDecl where
  name : String
  type : TypeExpr
  location : Option Location

inductive Item where
  | typedef (decl : TypedefDecl)
  | container (kind : ContainerKind) (spec : ContainerSpec)
  | enumeration (spec : EnumSpec)
  | declaration (decl : Declaration)
  | ignored (what : Ignored)

structure SourceUnit where
  file : String
  items : List Item

/-! ## Building trees -/

/-- A type of one word: `int`, `size_t` or a typedef's name. -/
def TypeExpr.word (name : String) : TypeExpr := .identifier [name]

def TypeExpr.returning (returns : TypeExpr) (params : List Declaration) : TypeExpr :=
  .function ⟨returns, params, false⟩

/-- The type defines its struct, union or enum on the spot. -/
def TypeExpr.isDefinition : TypeExpr → Bool
  | .container _ spec => spec.members.isSome
  | .enumeration spec => spec.enumerators.isSome
  | _ => false

def Declaration.named (name : String) (type : TypeExpr) : Declaration := ⟨some name, type, none⟩

def Declaration.unnamed (type : TypeExpr) : Declaration := ⟨none, type, none⟩

def Declaration.at (d : Declaration) (l : Location) : Declaration :=
  ⟨d.name, d.type, some l⟩

def ContainerSpec.reference (tag : String) : ContainerSpec := ⟨some tag, none, none⟩

def ContainerSpec.body (tag : Option String) (members : List Declaration) : ContainerSpec :=
  ⟨tag, some (members.map .declaration), none⟩

def ContainerSpec.at (s : ContainerSpec) (l : Location) : ContainerSpec :=
  ⟨s.tag, s.members, some l⟩

def EnumSpec.body (tag : Option String) (enumerators : List Enumerator) : EnumSpec :=
  ⟨tag, some enumerators, none⟩

end CythonDecls
