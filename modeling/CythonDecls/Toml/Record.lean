import CythonDecls.Toml.Basic

/-!
# Records in TOML

A record is a table, or an array of the values of its fields in order; what
nobody asks for is passed over. A date counts as a table without any of the
fields.
-/

namespace CythonDecls.Toml

def fields? (names : List String) : Value → Option Entries
  | .table _ entries => some entries
  | .array _ items => some (names.zip items)
  | .date => some []
  | _ => none

namespace Entries

def required {α : Type} (es : Entries) (name : String) (read : Value → Option α) : Option α :=
  es.lookup name >>= read

def defaulted {α : Type} (es : Entries) (name : String) (value : α) (read : Value → Option α) :
    Option α :=
  match es.lookup name with
  | none => some value
  | some v => read v

end Entries

def string? : Value → Option String
  | .string s => some s
  | _ => none

def boolean? : Value → Option Bool
  | .boolean b => some b
  | _ => none

def list? {α : Type} (read : Value → Option α) : Value → Option (List α)
  | .array _ items => items.mapM read
  | _ => none

end CythonDecls.Toml
