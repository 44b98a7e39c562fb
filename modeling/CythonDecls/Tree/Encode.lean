import CythonDecls.Json.Printer
import CythonDecls.Tree.Basic

/-!
# Parse trees to JSON

Every choice is a record with its `kind` in front, absent parts are written
as null, and nothing is left out.
-/

namespace CythonDecls

open Json (ofOption)

def Json.kinded (kind : String) (fields : List (String × Json)) : Json :=
  .record (("kind", .text kind) :: fields)

def Location.toJson (l : Location) : Json :=
  .record [("file", .text l.file), ("line", .nat l.line.toNat)]

def LiteralKind.kind : LiteralKind → String
  | .integer => "Int"
  | .floating => "Float"
  | .character => "Char"
  | .string => "String"

def ConstExpr.toJson : ConstExpr → Json
  | .literal k text => .kinded k.kind [("text", .text text)]
  | .unary op e => .kinded "Unary" [("op", .text op.symbol), ("operand", e.toJson)]
  | .binary op l r =>
    .kinded "Binary" [("op", .text op.symbol), ("lhs", l.toJson), ("rhs", r.toJson)]
  | .identifier name => .kinded "Identifier" [("name", .text name)]
  | .unsupported text => .kinded "Unsupported" [("text", .text text)]

def Enumerator.toJson (e : Enumerator) : Json :=
  .record [("name", .text e.name), ("value", ofOption ConstExpr.toJson e.value),
    ("location", ofOption Location.toJson e.location)]

def EnumSpec.fields (s : EnumSpec) : List (String × Json) :=
  [("name", ofOption .text s.tag),
    ("enumerators", ofOption (fun es => .array (es.map Enumerator.toJson)) s.enumerators),
    ("location", ofOption Location.toJson s.location)]

def EnumSpec.toJson (s : EnumSpec) : Json := .kinded "Enum" s.fields

def ContainerKind.kind : ContainerKind → String
  | .struct => "Struct"
  | .union => "Union"

def Ignored.toJson (i : Ignored) : Json :=
  .kinded "Ignored" [("name", .text i.name), ("location", ofOption Location.toJson i.location)]

mutual
def TypeExpr.toJson : TypeExpr → Json
  | .pointer t => .kinded "Pointer" [("target", t.toJson)]
  | .array t dim =>
    .kinded "Array" [("target", t.toJson), ("dim", ofOption (fun n => .nat n.toNat) dim)]
  | .identifier names => .kinded "Identifier" [("names", .array (names.map .text))]
  | .container kind spec => .kinded kind.kind spec.fields
  | .enumeration spec => spec.toJson
  | .function ⟨returns, params, variadic⟩ =>
    .kinded "Function" [("return_type", returns.toJson), ("params", .array (paramsToJson params)),
      ("variadic", .bool variadic)]

def ContainerSpec.fields : ContainerSpec → List (String × Json)
  | ⟨tag, members, location⟩ =>
    [("name", ofOption .text tag),
      ("members", match members with
        | none => .null
        | some ms => .array (membersToJson ms)),
      ("location", ofOption Location.toJson location)]

def Declaration.fields : Declaration → List (String × Json)
  | ⟨name, type, location⟩ =>
    [("name", ofOption .text name), ("ty", type.toJson),
      ("location", ofOption Location.toJson location)]

def membersToJson : List Member → List Json
  | [] => []
  | .declaration d :: ms => .kinded "Declaration" d.fields :: membersToJson ms
  | .ignored i :: ms => i.toJson :: membersToJson ms

def paramsToJson : List Declaration → List Json
  | [] => []
  | p :: ps => .record p.fields :: paramsToJson ps
end

def TypedefDecl.toJson (d : TypedefDecl) : Json :=
  .kinded "Typedef" [("name", .text d.name), ("ty", d.type.toJson),
    ("location", ofOption Location.toJson d.location)]

def Item.toJson : Item → Json
  | .typedef d => d.toJson
  | .container kind spec => .kinded kind.kind spec.fields
  | .enumeration spec => spec.toJson
  | .declaration d => .kinded "Declaration" d.fields
  | .ignored i => i.toJson

def SourceUnit.toJson (u : SourceUnit) : Json :=
  .record [("file", .text u.file), ("children", .array (u.items.map Item.toJson))]

def SourceUnit.print (u : SourceUnit) : String := u.toJson.pretty

end CythonDecls
