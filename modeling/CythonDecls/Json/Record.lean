import CythonDecls.Json.Basic

/-!
# Records in JSON

A record is an object with one value for each field, or an array of those
values in the order of the fields, where the last ones may be left off.
Fields nobody asks for are passed over. A tagged record names its kind in the
field `kind`, or in the first place of the array. What stands inside a tagged
record may be written in a few more ways.
-/

namespace CythonDecls.Json

/-- The values found, by field name. -/
abbrev Fields := List (Option String × Json)

namespace Fields

def occurrences (fs : Fields) (name : String) : Nat := fs.countP (·.1 = some name)

def find? (fs : Fields) (name : String) : Option Json :=
  (List.find? (fun f => f.1 = some name) fs).map (·.2)

def required {α : Type} (fs : Fields) (name : String) (read : Json → Option α) : Option α :=
  fs.find? name >>= read

def defaulted {α : Type} (fs : Fields) (name : String) (value : α) (read : Json → Option α) :
    Option α :=
  match fs.find? name with
  | none => some value
  | some v => read v

/-- A field that is absent when it is missing or null. -/
def optional {α : Type} (fs : Fields) (name : String) (read : Json → Option α) :
    Option (Option α) :=
  match fs.find? name with
  | none => some none
  | some .null => some none
  | some v => (read v).map some

end Fields

/-- The fields of a record whose own are `names`, none of them repeated. -/
def fields? (names : List String) : Json → Option Fields
  | .object fs => if names.all fun n => Fields.occurrences fs n ≤ 1 then some fs else none
  | .array vs =>
    if vs.length ≤ names.length then some ((names.map some).zip vs) else none
  | _ => none

/-- The fields of a record none of which may be left off an array. -/
def allFields? (names : List String) (v : Json) : Option Fields :=
  match v with
  | .array vs => if vs.length = names.length then fields? names v else none
  | _ => fields? names v

/-- The fields of a record that is always an object. -/
def members? (names : List String) (v : Json) : Option Fields :=
  match v with
  | .object _ => fields? names v
  | _ => none

def string? : Json → Option String
  | .string text => text
  | _ => none

/-- Whether a value stands inside a tagged record. -/
inductive Nesting where
  | outer
  | inner
  deriving DecidableEq, Repr

/-- The kind that a value names, out of `kinds`. Inside a tagged record its
place in the list, from zero, does as well. -/
def kind? (nesting : Nesting) (kinds : List String) (v : Json) : Option String :=
  match nesting, v with
  | _, .string text => text.filter kinds.contains
  | .inner, .number _ => v.nat?.bind (kinds[·]?)
  | _, _ => none

/-- The kind of a record, out of `kinds`, and the record without it. -/
def tagged? (nesting : Nesting) (kinds : List String) : Json → Option (String × Json)
  | .object fs =>
    if Fields.occurrences fs "kind" = 1 then do
      let kind ← Fields.find? fs "kind" >>= kind? nesting kinds
      return (kind, .object (fs.filter fun f => f.1 ≠ some "kind"))
    else none
  | .array (kind :: vs) => do return (← kind? nesting kinds kind, .array vs)
  | _ => none

def bool? : Json → Option Bool
  | .bool b => some b
  | _ => none

def uint32? (v : Json) : Option UInt32 :=
  v.nat?.bind fun n => if n < UInt32.size then some (UInt32.ofNat n) else none

def uint64? (v : Json) : Option UInt64 :=
  v.nat?.bind fun n => if n < UInt64.size then some (UInt64.ofNat n) else none

def list? {α : Type} (read : Json → Option α) : Json → Option (List α)
  | .array vs => vs.mapM read
  | _ => none

/-- A name out of a list, written as a text, or as the key of a lone field that
holds null. Inside a tagged record an object without fields counts as null. -/
def named? {α : Type} (nesting : Nesting) (read : String → Option α) (v : Json) : Option α :=
  match nesting, v with
  | _, .string (some name) => read name
  | _, .object [(some name, .null)] => read name
  | .inner, .object [(some name, .object [])] => read name
  | _, _ => none

end CythonDecls.Json
