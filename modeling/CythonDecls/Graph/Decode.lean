import CythonDecls.Graph.Encode
import CythonDecls.Text.Numeral
import CythonDecls.Tree.Decode

/-!
# Declaration graphs from JSON

Handles are not checked against the arena: a graph that is read may name nodes
it does not have.
-/

namespace CythonDecls

open Json

def Handle.ofJson? (v : Json) : Option Handle :=
  (uint32? v).map fun n => ⟨n.toNat⟩

/-- An object with one field, which is taken for a kind and its content. -/
def Json.variant? : Json → Option (String × Json)
  | .object [(some kind, v)] => some (kind, v)
  | _ => none

def Fundamental.ofJson? (v : Json) : Option Fundamental :=
  match variant? v with
  | some ("Extension", key) => (string? key).map .extension
  | _ => named? .outer (plainNames.lookup ·) v

def FieldMode.ofName? (name : String) : Option FieldMode :=
  [FieldMode.read, .write, .readWrite].find? (·.name = name)

def Json.int64? : Json → Option Int64
  | .number lexeme =>
    let magnitude? (cs : List Char) : Option Nat :=
      if cs.all Char.isDigit then some (Nat.ofDigitChars 10 cs 0) else none
    match lexeme.toList with
    | '-' :: cs =>
      (magnitude? cs).bind fun n =>
        if 0 < n ∧ n ≤ Text.signedBound then some (-Int64.ofNat n) else none
    | cs =>
      (magnitude? cs).bind fun n =>
        if n < Text.signedBound then some (Int64.ofNat n) else none
  | _ => none

def Field.ofJson? (v : Json) : Option Field := do
  let fs ← allFields? ["identifier", "ty", "mode", "inline"] v
  return ⟨← fs.required "identifier" string?, ← fs.required "ty" Handle.ofJson?,
    ← fs.required "mode" (named? .outer FieldMode.ofName?), ← fs.required "inline" bool?⟩

def Container.ofJson? (v : Json) : Option Container := do
  let fs ← allFields? ["tag", "fields", "location"] v
  return ⟨← fs.optional "tag" string?, ← fs.required "fields" (list? Field.ofJson?),
    ← fs.optional "location" Location.ofJson?⟩

def EnumValue.ofJson? (v : Json) : Option EnumValue := do
  let fs ← allFields? ["identifier", "value"] v
  return ⟨← fs.required "identifier" string?, ← fs.required "value" int64?⟩

def Enumeration.ofJson? (v : Json) : Option Enumeration := do
  let fs ← allFields? ["tag", "values", "location"] v
  return ⟨← fs.optional "tag" string?, ← fs.required "values" (list? EnumValue.ofJson?),
    ← fs.optional "location" Location.ofJson?⟩

def Typedef.ofJson? (v : Json) : Option Typedef := do
  let fs ← allFields? ["identifier", "target", "location"] v
  return ⟨← fs.required "identifier" string?, ← fs.optional "target" Handle.ofJson?,
    ← fs.optional "location" Location.ofJson?⟩

def Argument.ofJson? (v : Json) : Option Argument := do
  let fs ← allFields? ["identifier", "ty"] v
  return ⟨← fs.optional "identifier" string?, ← fs.required "ty" Handle.ofJson?⟩

def Function.ofJson? (v : Json) : Option Function := do
  let fs ← allFields? ["identifier", "return_type", "arguments", "variadic", "location"] v
  return ⟨← fs.required "identifier" string?, ← fs.required "return_type" Handle.ofJson?,
    ← fs.required "arguments" (list? Argument.ofJson?), ← fs.required "variadic" bool?,
    ← fs.optional "location" Location.ofJson?⟩

def Variable.ofJson? (v : Json) : Option Variable := do
  let fs ← allFields? ["identifier", "ty", "location"] v
  return ⟨← fs.required "identifier" string?, ← fs.required "ty" Handle.ofJson?,
    ← fs.optional "location" Location.ofJson?⟩

def Node.ofJson? (v : Json) : Option Node := do
  let (kind, v) ← variant? v
  match kind with
  | "Fundamental" => return .fundamental (← Fundamental.ofJson? v)
  | "Pointer" =>
    let fs ← members? ["target"] v
    return .pointer (← fs.required "target" Handle.ofJson?)
  | "Array" =>
    let fs ← members? ["target", "dim"] v
    return .array (← fs.required "target" Handle.ofJson?) (← fs.optional "dim" uint64?)
  | "Struct" => return .container .struct (← Container.ofJson? v)
  | "Union" => return .container .union (← Container.ofJson? v)
  | "Enum" => return .enumeration (← Enumeration.ofJson? v)
  | "Typedef" => return .typedef (← Typedef.ofJson? v)
  | "Function" => return .function (← Function.ofJson? v)
  | "Variable" => return .object (← Variable.ofJson? v)
  | _ => none

/-- The entries of an object of handles; the last of a repeated key counts. -/
def Table.ofJson? : Json → Option (Table String Handle)
  | .object fs => do
    let entry? (f : Option String × Json) : Option (String × Handle) := do
      return (← f.1, ← Handle.ofJson? f.2)
    return ⟨(← fs.mapM entry?).reverse⟩
  | _ => none

def Module.ofJson? (v : Json) : Option Module := do
  let fs ← allFields? ["items"] v
  return ⟨← fs.required "items" (list? Handle.ofJson?)⟩

def Graph.ofJson? (v : Json) : Option Graph := do
  let fs ← allFields? ["decls", "fundamentals", "module"] v
  return ⟨(← fs.required "decls" (list? Node.ofJson?)).toArray,
    ← fs.required "fundamentals" Table.ofJson?, ← fs.required "module" Module.ofJson?⟩

end CythonDecls
