/-!
# Tables

A table maps keys to values; the newest entry of a key is the one that counts.
-/

namespace CythonDecls

structure Table (κ : Type) (α : Type) where
  entries : List (κ × α)

namespace Table

variable {κ : Type} {α : Type} [DecidableEq κ]

def empty : Table κ α := ⟨[]⟩

def find? (t : Table κ α) (k : κ) : Option α := t.entries.lookup k

def contains (t : Table κ α) (k : κ) : Bool := (t.find? k).isSome

def insert (t : Table κ α) (k : κ) (a : α) : Table κ α := ⟨(k, a) :: t.entries⟩

@[simp] theorem find?_empty (k : κ) : (empty : Table κ α).find? k = none := rfl

theorem find?_insert (t : Table κ α) (k j : κ) (a : α) :
    (t.insert k a).find? j = if j = k then some a else t.find? j := by
  simp only [find?, insert, List.lookup_cons]
  by_cases h : j = k <;> simp [h, beq_false_of_ne]

end Table

end CythonDecls
