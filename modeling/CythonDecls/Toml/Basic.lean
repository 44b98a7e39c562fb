/-!
# TOML documents

A document is a table. How a table came about decides what may still be added
to it: a header may define a table once, and dotted keys only add to tables
that dotted keys made.
-/

namespace CythonDecls.Toml

/-- What made a table: its own header, the header of a table inside it, dotted
keys, or braces. -/
inductive Origin where
  | header
  | implied
  | dotted
  | inline
  deriving DecidableEq, Repr

/-- A value. Numbers and dates are known by their kind only. An array is
`growing` when its items are tables with headers of their own. -/
inductive Value where
  | string (s : String)
  | number
  | boolean (b : Bool)
  | date
  | array (growing : Bool) (items : List Value)
  | table (origin : Origin) (entries : List (String × Value))

abbrev Entries := List (String × Value)

/-- Puts `v` in the place of the entry of `k`, or at the end. -/
def put (k : String) (v : Value) : Entries → Entries
  | [] => [(k, v)]
  | (j, w) :: es => if j = k then (k, v) :: es else (j, w) :: put k v es

/-- Changes the last table of a growing array. -/
def inLast (items : List Value) (f : Entries → Option Entries) : Option (List Value) :=
  match items.getLast? with
  | some (.table o es) => do return items.dropLast ++ [.table o (← f es)]
  | _ => none

/-! ## Headers -/

/-- Changes the entries of the table at a header's path. Tables on the way that
are missing are implied. -/
def atPath : List String → (Entries → Option Entries) → Entries → Option Entries
  | [], f, es => f es
  | k :: ks, f, es =>
    match es.lookup k with
    | none => do return put k (.table .implied (← atPath ks f [])) es
    | some (.table .inline _) => none
    | some (.table o inner) => do return put k (.table o (← atPath ks f inner)) es
    | some (.array true items) => do return put k (.array true (← inLast items (atPath ks f))) es
    | some _ => none

/-- The entry of a header in brackets: a table that nothing has defined. -/
def openTable (k : String) (es : Entries) : Option Entries :=
  match es.lookup k with
  | none => some (put k (.table .header []) es)
  | some (.table .implied inner) => some (put k (.table .header inner) es)
  | some _ => none

/-- The entry of a header in double brackets: one more table in its array. -/
def openItem (k : String) (es : Entries) : Option Entries :=
  match es.lookup k with
  | none => some (put k (.array true [.table .header []]) es)
  | some (.array true items) => some (put k (.array true (items ++ [.table .header []])) es)
  | some _ => none

/-! ## Keys and values -/

/-- Adds a value at a dotted key. `free` says whether the table at hand takes
entries here: the one that was opened does, and those that dotted keys made. -/
def assign (free : Bool) : List String → Value → Entries → Option Entries
  | [], _, _ => none
  | [k], v, es => if free ∧ (es.lookup k).isNone then some (es ++ [(k, v)]) else none
  | k :: ks, v, es =>
    match es.lookup k with
    | none => do return put k (.table .dotted (← assign true ks v [])) es
    | some (.table .dotted inner) => do return put k (.table .dotted (← assign true ks v inner)) es
    | some (.table .implied inner) =>
      do return put k (.table .implied (← assign false ks v inner)) es
    | some (.array true items) =>
      do return put k (.array true (← inLast items (assign false ks v))) es
    | some _ => none

end CythonDecls.Toml
