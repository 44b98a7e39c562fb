import CythonDecls.Graph.Basic
import CythonDecls.Tree.Encode

/-!
# Declaration graphs to JSON

A node is an object with one field, which names its kind. Handles are written
as their numbers.
-/

namespace CythonDecls

open Json (ofOption)

def Handle.toJson (h : Handle) : Json := .nat h.index

def Fundamental.plainNames : List (String × Fundamental) :=
  [("Char", .char), ("UnsignedChar", .unsignedChar), ("Short", .short),
    ("UnsignedShort", .unsignedShort), ("Int", .int), ("UnsignedInt", .unsignedInt),
    ("Long", .long), ("UnsignedLong", .unsignedLong), ("LongLong", .longLong),
    ("UnsignedLongLong", .unsignedLongLong), ("Float", .float), ("Double", .double),
    ("LongDouble", .longDouble), ("Void", .void)]

def Fundamental.toJson (t : Fundamental) : Json :=
  match t with
  | .extension key => .record [("Extension", .text key)]
  | t => ofOption (fun p => .text p.1) (plainNames.find? (·.2 = t))

def FieldMode.name : FieldMode → String
  | .read => "Read"
  | .write => "Write"
  | .readWrite => "ReadWrite"

def Field.toJson (f : Field) : Json :=
  .record [("identifier", .text f.name), ("ty", f.type.toJson), ("mode", .text f.mode.name),
    ("inline", .bool f.inline)]

def Container.toJson (c : Container) : Json :=
  .record [("tag", ofOption .text c.tag), ("fields", .array (c.fields.map Field.toJson)),
    ("location", ofOption Location.toJson c.location)]

def EnumValue.toJson (v : EnumValue) : Json :=
  .record [("identifier", .text v.name), ("value", .int v.value.toInt)]

def Enumeration.toJson (e : Enumeration) : Json :=
  .record [("tag", ofOption .text e.tag), ("values", .array (e.values.map EnumValue.toJson)),
    ("location", ofOption Location.toJson e.location)]

def Typedef.toJson (t : Typedef) : Json :=
  .record [("identifier", .text t.name), ("target", ofOption Handle.toJson t.target),
    ("location", ofOption Location.toJson t.location)]

def Argument.toJson (a : Argument) : Json :=
  .record [("identifier", ofOption .text a.name), ("ty", a.type.toJson)]

def Function.toJson (f : Function) : Json :=
  .record [("identifier", .text f.name), ("return_type", f.returns.toJson),
    ("arguments", .array (f.arguments.map Argument.toJson)), ("variadic", .bool f.variadic),
    ("location", ofOption Location.toJson f.location)]

def Variable.toJson (v : Variable) : Json :=
  .record [("identifier", .text v.name), ("ty", v.type.toJson),
    ("location", ofOption Location.toJson v.location)]

def Node.toJson : Node → Json
  | .fundamental t => .record [("Fundamental", t.toJson)]
  | .pointer target => .record [("Pointer", .record [("target", target.toJson)])]
  | .array target dim =>
    .record [("Array", .record [("target", target.toJson),
      ("dim", ofOption (fun n => .nat n.toNat) dim)])]
  | .container kind c => .record [(kind.kind, c.toJson)]
  | .enumeration e => .record [("Enum", e.toJson)]
  | .typedef t => .record [("Typedef", t.toJson)]
  | .function f => .record [("Function", f.toJson)]
  | .object v => .record [("Variable", v.toJson)]

/-- The nodes in the order of their handles, and the module list. -/
def Graph.toJson (g : Graph) : Json :=
  .record [("decls", .array (g.nodes.toList.map Node.toJson)),
    ("items", .array (g.module.items.map Handle.toJson))]

end CythonDecls
