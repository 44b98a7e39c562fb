import CythonDecls.Proofs.Graph.Growth

/-!
# Closed graphs

A graph is closed when no node names a handle without a node. In a graph that
a translation made, pointers, arrays and functions moreover stand behind the
nodes they are made of, so a type can be read from its outermost node inwards.
Fields and typedef targets may well point backwards and forwards.
-/

namespace CythonDecls

/-- The handles that a node names. -/
def Node.children : Node → List Handle
  | .pointer target => [target]
  | .array target _ => [target]
  | .container _ c => c.fields.map (·.type)
  | .typedef d => d.target.toList
  | .function f => f.returns :: f.arguments.map (·.type)
  | .object v => [v.type]
  | _ => []

/-- The handles of the types that a pointer, array or function is made of. -/
def Node.parts : Node → List Handle
  | .pointer target => [target]
  | .array target _ => [target]
  | .function f => f.returns :: f.arguments.map (·.type)
  | _ => []

theorem Node.Becomes.parts {m n : Node} (h : Becomes m n) : n.parts = m.parts := by
  cases h <;> rfl

namespace Graph

def InRange (g : Graph) : Prop := ∀ h n, g.get? h = some n → ∀ k ∈ n.children, k.index < g.size

structure Closed (g : Graph) : Prop where
  inRange : g.InRange
  descending : ∀ h n, g.get? h = some n → ∀ k ∈ n.parts, k.index < h.index

def nodeAt (g : Graph) (i : Fin g.nodes.size) : Node := g.nodes[i]

theorem forall_get?_iff (g : Graph) (P : Handle → Node → Prop) :
    (∀ h n, g.get? h = some n → P h n) ↔ ∀ i : Fin g.nodes.size, P ⟨i⟩ (g.nodeAt i) := by
  constructor
  · exact fun hall i => hall ⟨i⟩ _ (Array.getElem?_eq_getElem i.isLt)
  · intro hall h n hn
    obtain ⟨hlt, rfl⟩ := Array.getElem?_eq_some_iff.mp hn
    exact hall ⟨h.index, hlt⟩

instance (g : Graph) : Decidable g.InRange :=
  decidable_of_iff _ (g.forall_get?_iff fun _ n => ∀ k ∈ n.children, k.index < g.size).symm

instance (g : Graph) : Decidable g.Closed :=
  have : Decidable (∀ h n, g.get? h = some n → ∀ k ∈ n.parts, k.index < h.index) :=
    decidable_of_iff _ (g.forall_get?_iff fun h n => ∀ k ∈ n.parts, k.index < h.index).symm
  decidable_of_iff (g.InRange ∧ ∀ h n, g.get? h = some n → ∀ k ∈ n.parts, k.index < h.index)
    ⟨fun h => ⟨h.1, h.2⟩, fun h => ⟨h.inRange, h.descending⟩⟩

theorem Closed.empty : Closed .empty where
  inRange _ _ hn := by cases hn
  descending _ _ hn := by cases hn

theorem Closed.add {g : Graph} (hg : g.Closed) {n : Node}
    (hc : ∀ k ∈ n.children, k.index < g.size) (hp : ∀ k ∈ n.parts, k.index < g.size) :
    (g.add n).Closed where
  inRange h m hm k hk := by
    rw [size_add]
    rw [get?_add] at hm
    split at hm
    · cases hm
      exact Nat.lt_succ_of_lt (hc k hk)
    · exact Nat.lt_succ_of_lt (hg.inRange h m hm k hk)
  descending h m hm k hk := by
    rw [get?_add] at hm
    split at hm
    · rename_i hh
      cases hm
      rw [hh]
      exact hp k hk
    · exact hg.descending h m hm k hk

theorem Closed.replace {g : Graph} (hg : g.Closed) {h : Handle} {m n : Node}
    (hm : g.get? h = some m) (hp : n.parts = m.parts) (hc : ∀ k ∈ n.children, k.index < g.size) :
    (g.set h n).Closed where
  inRange j l hl k hk := by
    rw [size_set]
    by_cases hj : j = h
    · subst hj
      rw [get?_set_self hm] at hl
      cases hl
      exact hc k hk
    · rw [get?_set_ne g hj] at hl
      exact hg.inRange j l hl k hk
  descending j l hl k hk := by
    by_cases hj : j = h
    · subst hj
      rw [get?_set_self hm] at hl
      cases hl
      rw [hp] at hk
      exact hg.descending j m hm k hk
    · rw [get?_set_ne g hj] at hl
      exact hg.descending j l hl k hk

theorem Closed.set {g : Graph} (hg : g.Closed) {h : Handle} {m n : Node} (hm : g.get? h = some m)
    (hb : m.Becomes n) (hc : ∀ k ∈ n.children, k.index < g.size) : (g.set h n).Closed :=
  hg.replace hm hb.parts hc

theorem Closed.mapModule {g : Graph} (hg : g.Closed) (f : Module → Module) :
    (g.mapModule f).Closed :=
  ⟨hg.inRange, hg.descending⟩

end Graph

end CythonDecls
