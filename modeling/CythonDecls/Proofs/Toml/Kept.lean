import CythonDecls.Proofs.Toml.Strings
import CythonDecls.Toml.Record

/-!
# What a document says stays

Lines add tables and entries, and an entry is never replaced by another. So a
text that a document has at some path is there when it was read to its end.
-/

namespace CythonDecls.Toml

/-! ## Texts at paths -/

/-- The text at a path that leads through tables. -/
def Value.text? : List String → Value → Option String
  | [], v => string? v
  | k :: ks, .table _ es => es.lookup k >>= text? ks
  | _ :: _, _ => none

/-- Each text of `v` is one of `w`, at the same path. -/
def Value.Keeps (v w : Value) : Prop := ∀ path s, v.text? path = some s → w.text? path = some s

/-- Each text of `es` is one of `es'`, at the same path. -/
def Keeps (es es' : Entries) : Prop := ∀ k path s,
  es.lookup k >>= Value.text? path = some s → es'.lookup k >>= Value.text? path = some s

section
variable {es es' es₁ es₂ : Entries} {k : String} {v w : Value}

theorem Keeps.refl (es : Entries) : Keeps es es := fun _ _ _ => id

theorem Keeps.trans (h₁ : Keeps es es₁) (h₂ : Keeps es₁ es₂) : Keeps es es₂ :=
  fun k path s h => h₂ k path s (h₁ k path s h)

theorem Keeps.table (h : Keeps es es') (o o' : Origin) :
    (Value.table o es).Keeps (.table o' es') := by
  intro path s hs
  cases path with
  | nil => cases hs
  | cons k path => exact h k path s hs

theorem Value.array_keeps (growing : Bool) (items : List Value) (w : Value) :
    (Value.array growing items).Keeps w := by
  intro path s hs
  cases path <;> cases hs

theorem lookup_put (j : String) :
    (put k v es).lookup j = if j = k then some v else es.lookup j := by
  induction es with
  | nil => by_cases hj : j = k <;> simp [put, hj, List.lookup_cons, beq_false_of_ne]
  | cons e es ih =>
    obtain ⟨i, w⟩ := e
    by_cases hi : i = k
    · by_cases hj : j = k <;> simp [put, hi, hj, List.lookup_cons, beq_false_of_ne]
    · by_cases hj : j = i
      · simp [put, hi, hj]
      · simp [put, hi, List.lookup_cons, beq_false_of_ne hj, ih]

theorem keeps_put (h : ∀ w, es.lookup k = some w → w.Keeps v) : Keeps es (put k v es) := by
  intro j path s hs
  rw [lookup_put]
  by_cases hj : j = k
  · subst hj
    obtain ⟨w, hw, hs⟩ := Option.bind_eq_some_iff.mp hs
    rw [if_pos rfl]
    exact h w hw path s hs
  · rw [if_neg hj]
    exact hs

theorem keeps_put_new (hk : es.lookup k = none) : Keeps es (put k v es) :=
  keeps_put fun _ hw => nomatch hk.symm.trans hw

theorem keeps_put_table {o : Origin} (hk : es.lookup k = some (.table o es₁)) (o' : Origin)
    (h : Keeps es₁ es₂) : Keeps es (put k (.table o' es₂) es) := by
  refine keeps_put fun w hw => ?_
  cases hk.symm.trans hw
  exact h.table o o'

theorem keeps_put_array {growing : Bool} {items : List Value}
    (hk : es.lookup k = some (.array growing items)) : Keeps es (put k v es) := by
  refine keeps_put fun w hw => ?_
  cases hk.symm.trans hw
  exact Value.array_keeps growing items v

theorem keeps_append : Keeps es (es ++ [(k, v)]) := by
  intro j path s hs
  obtain ⟨w, hw, hs⟩ := Option.bind_eq_some_iff.mp hs
  rw [List.lookup_append, hw]
  exact hs

end

/-! ## Changes -/

section
variable {es es' : Entries} {k : String} {ks : List String} {v : Value}

theorem atPath_keeps {f : Entries → Option Entries} (hf : ∀ es es', f es = some es' → Keeps es es')
    (h : atPath ks f es = some es') : Keeps es es' := by
  induction ks generalizing es es' with
  | nil => exact hf es es' h
  | cons k ks ih =>
    unfold atPath at h
    split at h
    · rename_i hk
      obtain ⟨inner, -, h⟩ := Option.bind_eq_some_iff.mp h
      cases h
      exact keeps_put_new hk
    · cases h
    · rename_i o inner _ hk
      obtain ⟨inner', hinner, h⟩ := Option.bind_eq_some_iff.mp h
      cases h
      exact keeps_put_table hk o (ih hinner)
    · rename_i items hk
      obtain ⟨items', -, h⟩ := Option.bind_eq_some_iff.mp h
      cases h
      exact keeps_put_array hk
    · cases h

theorem openTable_keeps (h : openTable k es = some es') : Keeps es es' := by
  unfold openTable at h
  split at h
  · rename_i hk
    cases h
    exact keeps_put_new hk
  · rename_i inner hk
    cases h
    exact keeps_put_table hk .header (.refl inner)
  · cases h

theorem openItem_keeps (h : openItem k es = some es') : Keeps es es' := by
  unfold openItem at h
  split at h
  · rename_i hk
    cases h
    exact keeps_put_new hk
  · rename_i items hk
    cases h
    exact keeps_put_array hk
  · cases h

theorem assign_keeps {free : Bool} (h : assign free ks v es = some es') : Keeps es es' := by
  induction ks generalizing free es es' with
  | nil => cases h
  | cons k ks ih =>
    unfold assign at h
    split at h
    · cases h
    · split at h
      · cases h
        exact keeps_append
      · cases h
    · rename_i hcons
      cases hcons
      split at h
      · rename_i hk
        obtain ⟨inner, -, h⟩ := Option.bind_eq_some_iff.mp h
        cases h
        exact keeps_put_new hk
      · rename_i inner hk
        obtain ⟨inner', hinner, h⟩ := Option.bind_eq_some_iff.mp h
        cases h
        exact keeps_put_table hk .dotted (ih hinner)
      · rename_i inner hk
        obtain ⟨inner', hinner, h⟩ := Option.bind_eq_some_iff.mp h
        cases h
        exact keeps_put_table hk .implied (ih hinner)
      · rename_i items hk
        obtain ⟨items', -, h⟩ := Option.bind_eq_some_iff.mp h
        cases h
        exact keeps_put_array hk
      · cases h

end

/-! ## Documents -/

namespace Reader

def Yields {α : Type} (w : Reader α) (Q : α → Prop) : Prop :=
  ∀ cs a rest, w.run cs = some (a, rest) → Q a

section
variable {α β : Type} {w : Reader α} {f : α → Reader β} {P : α → Prop} {Q : β → Prop}

theorem Yields.bind (hw : Yields w P) (hf : ∀ a, P a → Yields (f a) Q) : Yields (w >>= f) Q := by
  intro cs b rest h
  obtain ⟨a, mid, ha, hb⟩ := run_bind_eq_some.mp h
  exact hf a (hw cs a mid ha) mid b rest hb

theorem Yields.behind (hf : ∀ a, Yields (f a) Q) : Yields (w >>= f) Q :=
  Yields.bind (P := fun _ => True) (fun _ _ _ _ => trivial) fun a _ => hf a

theorem yields_pure {b : β} (hb : Q b) : Yields (pure b) Q := fun _ _ _ h => by cases h; exact hb

theorem yields_fail : Yields fail Q := fun _ _ _ h => by cases h

end

theorem keep_yields {es : Entries} {result : Option Entries} (path : List String)
    (h : ∀ es', result = some es' → Keeps es es') :
    Yields (keep result path) fun d => Keeps es d.entries := by
  cases result with
  | none => exact yields_fail
  | some es' => exact yields_pure (h es' rfl)

theorem header_keeps (d : Document) : Yields (header d) fun d' => Keeps d.entries d'.entries := by
  unfold header
  refine .behind fun double => .behind fun _ => .behind fun path => .behind fun _ => .behind
    fun _ => ?_
  cases path.getLast? with
  | none => exact yields_fail
  | some k =>
    refine keep_yields path fun es' => atPath_keeps fun es es' h => ?_
    cases double with
    | false => exact openTable_keeps h
    | true => exact openItem_keeps h

theorem entry_keeps (d : Document) : Yields (entry d) fun d' => Keeps d.entries d'.entries := by
  unfold entry
  refine .behind fun path => .behind fun _ => .behind fun _ => .behind fun v => .behind fun _ => ?_
  exact keep_yields d.path fun es' => atPath_keeps fun es es' h => assign_keeps h

theorem lines_keep (n : Nat) (d : Document) :
    Yields (lines n d) fun d' => Keeps d.entries d'.entries := by
  induction n generalizing d with
  | zero => exact yields_fail
  | succ n ih =>
    unfold lines
    refine .behind fun _ => .behind fun next => ?_
    split
    · exact yields_pure (.refl d.entries)
    · exact (header_keeps d).bind fun d₁ h₁ cs d₂ rest h₂ => h₁.trans (ih d₁ cs d₂ rest h₂)
    · exact .behind fun _ => ih d
    · exact .behind fun _ => ih d
    · exact .behind fun _ => ih d
    · exact (entry_keeps d).bind fun d₁ h₁ cs d₂ rest h₂ => h₁.trans (ih d₁ cs d₂ rest h₂)

end Reader

end CythonDecls.Toml
