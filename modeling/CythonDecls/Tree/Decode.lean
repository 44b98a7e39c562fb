import CythonDecls.Json.Reader
import CythonDecls.Json.Record
import CythonDecls.Tree.Encode

/-!
# Parse trees from JSON

A reader takes the JSON of one node and reads the nodes inside it with the
reader it is given, so that the recursion is one: `TypeExpr.read? n` reads
types whose nodes nest at most `n` deep. Nesting is bounded by
`Json.depthLimit`, and that many levels are always enough.
-/

namespace CythonDecls

open Json

def Location.ofJson? (v : Json) : Option Location := do
  let fs ← fields? ["file", "line"] v
  return ⟨← fs.required "file" string?, ← fs.required "line" uint32?⟩

/-! ## Constant expressions -/

def LiteralKind.ofKind? : String → Option LiteralKind
  | "Int" => some .integer
  | "Float" => some .floating
  | "Char" => some .character
  | "String" => some .string
  | _ => none

def ConstExpr.kinds : List String :=
  ["Int", "Float", "Char", "String", "Unary", "Binary", "Identifier", "Unsupported"]

/-- One node of an expression, with its operands read by `operand?`. -/
def ConstExpr.node? (operand? : Json → Option ConstExpr) (nesting : Nesting) (v : Json) :
    Option ConstExpr := do
  let (kind, v) ← tagged? nesting kinds v
  match kind with
  | "Unary" =>
    let fs ← fields? ["op", "operand"] v
    return .unary (← fs.required "op" (named? .inner UnaryOp.ofSymbol?))
      (← fs.required "operand" operand?)
  | "Binary" =>
    let fs ← fields? ["op", "lhs", "rhs"] v
    return .binary (← fs.required "op" (named? .inner BinaryOp.ofSymbol?))
      (← fs.required "lhs" operand?) (← fs.required "rhs" operand?)
  | "Identifier" =>
    let fs ← fields? ["name"] v
    return .identifier (← fs.required "name" string?)
  | "Unsupported" =>
    let fs ← fields? ["text"] v
    return .unsupported (← fs.required "text" string?)
  | kind =>
    let literal ← LiteralKind.ofKind? kind
    let fs ← fields? ["text"] v
    return .literal literal (← fs.required "text" string?)

def ConstExpr.read? : Nat → Nesting → Json → Option ConstExpr
  | 0 => fun _ _ => none
  | n + 1 => ConstExpr.node? (ConstExpr.read? n .inner)

def ConstExpr.ofJson? (nesting : Nesting) (v : Json) : Option ConstExpr :=
  ConstExpr.read? depthLimit nesting v

def Enumerator.ofJson? (v : Json) : Option Enumerator := do
  let fs ← fields? ["name", "value", "location"] v
  return ⟨← fs.required "name" string?, ← fs.optional "value" (ConstExpr.ofJson? .inner),
    ← fs.optional "location" Location.ofJson?⟩

/-- An enum whose kind has been read. -/
def EnumSpec.ofFields? (v : Json) : Option EnumSpec := do
  let fs ← fields? ["name", "enumerators", "location"] v
  return ⟨← fs.optional "name" string?,
    ← fs.optional "enumerators" (list? Enumerator.ofJson?),
    ← fs.optional "location" Location.ofJson?⟩

/-! ## Types -/

def Ignored.ofFields? (v : Json) : Option Ignored := do
  let fs ← fields? ["name", "location"] v
  return ⟨← fs.required "name" string?, ← fs.optional "location" Location.ofJson?⟩

def Declaration.ofFields? (type? : Json → Option TypeExpr) (v : Json) : Option Declaration := do
  let fs ← fields? ["name", "ty", "location"] v
  return ⟨← fs.optional "name" string?, ← fs.required "ty" type?,
    ← fs.optional "location" Location.ofJson?⟩

def Member.kinds : List String := ["Declaration", "Ignored"]

def Member.node? (type? : Json → Option TypeExpr) (v : Json) : Option Member := do
  let (kind, v) ← tagged? .inner kinds v
  match kind with
  | "Declaration" => return .declaration (← Declaration.ofFields? type? v)
  | "Ignored" => return .ignored (← Ignored.ofFields? v)
  | _ => none

def ContainerSpec.ofFields? (type? : Json → Option TypeExpr) (v : Json) :
    Option ContainerSpec := do
  let fs ← fields? ["name", "members", "location"] v
  return ⟨← fs.optional "name" string?, ← fs.optional "members" (list? (Member.node? type?)),
    ← fs.optional "location" Location.ofJson?⟩

def Signature.ofFields? (type? : Json → Option TypeExpr) (v : Json) : Option Signature := do
  let fs ← fields? ["return_type", "params", "variadic"] v
  return ⟨← fs.required "return_type" type?,
    ← fs.defaulted "params" [] (list? (Declaration.ofFields? type?)),
    ← fs.defaulted "variadic" false bool?⟩

def TypeExpr.kinds : List String :=
  ["Pointer", "Array", "Identifier", "Struct", "Union", "Enum", "Function"]

/-- One node of a type, with the types inside it read by `type?`. -/
def TypeExpr.node? (type? : Json → Option TypeExpr) (v : Json) : Option TypeExpr := do
  let (kind, v) ← tagged? .inner kinds v
  match kind with
  | "Pointer" =>
    let fs ← fields? ["target"] v
    return .pointer (← fs.required "target" type?)
  | "Array" =>
    let fs ← fields? ["target", "dim"] v
    return .array (← fs.required "target" type?) (← fs.optional "dim" uint64?)
  | "Identifier" =>
    let fs ← fields? ["names"] v
    return .identifier (← fs.required "names" (list? string?))
  | "Struct" => return .container .struct (← ContainerSpec.ofFields? type? v)
  | "Union" => return .container .union (← ContainerSpec.ofFields? type? v)
  | "Enum" => return .enumeration (← EnumSpec.ofFields? v)
  | "Function" => return .function (← Signature.ofFields? type? v)
  | _ => none

def TypeExpr.read? : Nat → Json → Option TypeExpr
  | 0 => fun _ => none
  | n + 1 => TypeExpr.node? (TypeExpr.read? n)

def TypeExpr.ofJson? (v : Json) : Option TypeExpr := TypeExpr.read? depthLimit v

/-! ## Units -/

def TypedefDecl.ofFields? (v : Json) : Option TypedefDecl := do
  let fs ← fields? ["name", "ty", "location"] v
  return ⟨← fs.required "name" string?, ← fs.required "ty" TypeExpr.ofJson?,
    ← fs.optional "location" Location.ofJson?⟩

def Item.kinds : List String :=
  ["Typedef", "Struct", "Union", "Enum", "Declaration", "Ignored"]

def Item.ofJson? (v : Json) : Option Item := do
  let (kind, v) ← tagged? .outer kinds v
  match kind with
  | "Typedef" => return .typedef (← TypedefDecl.ofFields? v)
  | "Struct" => return .container .struct (← ContainerSpec.ofFields? TypeExpr.ofJson? v)
  | "Union" => return .container .union (← ContainerSpec.ofFields? TypeExpr.ofJson? v)
  | "Enum" => return .enumeration (← EnumSpec.ofFields? v)
  | "Declaration" => return .declaration (← Declaration.ofFields? TypeExpr.ofJson? v)
  | "Ignored" => return .ignored (← Ignored.ofFields? v)
  | _ => none

/-- The parts of a unit that are read. A field of the unit itself that has
another name is passed over without looking into its value, as long as the name
is a text. -/
def SourceUnit.kept : Json → Json
  | .object fs => .object (fs.filter fun f => [none, some "file", some "children"].contains f.1)
  | v => v

def SourceUnit.ofJson? (v : Json) : Option SourceUnit := do
  let v := kept v
  guard v.readable
  let fs ← fields? ["file", "children"] v
  return ⟨← fs.required "file" string?, ← fs.defaulted "children" [] (list? Item.ofJson?)⟩

def SourceUnit.ofText? (s : String) : Option SourceUnit := Json.read? s >>= SourceUnit.ofJson?

/-- Reading the printed form gives the unit back, as far as printing can tell. -/
def SourceUnit.readsBack (u : SourceUnit) : Bool :=
  match SourceUnit.ofText? u.print with
  | some w => w.print = u.print
  | none => false

end CythonDecls
