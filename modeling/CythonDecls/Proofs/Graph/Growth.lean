import CythonDecls.Graph.Basic

/-!
# Growing graphs

A translation adds nodes, gives aggregates their bodies and typedefs their
targets, and does nothing else to a graph. `Node.Becomes` is what such a step
may make of one node, and a graph grows into another when each of its nodes
becomes the node of the same handle there.
-/

namespace CythonDecls

namespace Graph

theorem eq_ok_of_mem_toOption {ε α : Type} {x : Except ε α} {a : α} (h : a ∈ x.toOption) :
    x = .ok a := by
  cases x with
  | error e => cases h
  | ok b =>
    cases h
    rfl

theorem lt_of_get? {g : Graph} {h : Handle} {n : Node} (hn : g.get? h = some n) :
    h.index < g.size := by
  unfold get? at hn
  exact (Array.getElem?_eq_some_iff.mp hn).1

theorem get?_of_lt {g : Graph} {h : Handle} (hh : h.index < g.size) : ∃ n, g.get? h = some n :=
  ⟨g.nodes[h.index], Array.getElem?_eq_getElem hh⟩

@[simp] theorem size_add (g : Graph) (n : Node) : (g.add n).size = g.size + 1 :=
  Array.size_push ..

@[simp] theorem size_set (g : Graph) (h : Handle) (n : Node) : (g.set h n).size = g.size :=
  Array.size_setIfInBounds ..

@[simp] theorem get?_next (g : Graph) : g.get? g.next = none :=
  Array.getElem?_eq_none (Nat.le_refl _)

theorem get?_add (g : Graph) (n : Node) (h : Handle) :
    (g.add n).get? h = if h = g.next then some n else g.get? h := by
  obtain ⟨i⟩ := h
  simp only [get?, add, next, Array.getElem?_push, size, Handle.mk.injEq]

@[simp] theorem get?_add_next (g : Graph) (n : Node) : (g.add n).get? g.next = some n := by
  rw [get?_add, if_pos rfl]

theorem get?_add_of_some {g : Graph} {h : Handle} {m : Node} (hm : g.get? h = some m) (n : Node) :
    (g.add n).get? h = some m := by
  have hne : h ≠ g.next := by
    intro he
    rw [he, get?_next] at hm
    cases hm
  rw [get?_add, if_neg hne, hm]

theorem get?_set_self {g : Graph} {h : Handle} {m : Node} (hm : g.get? h = some m) (n : Node) :
    (g.set h n).get? h = some n := by
  have hlt : h.index < g.nodes.size := lt_of_get? hm
  simp [get?, set, hlt]

theorem get?_set_ne (g : Graph) {h k : Handle} (hne : k ≠ h) (n : Node) :
    (g.set h n).get? k = g.get? k := by
  have hi : h.index ≠ k.index := by
    intro he
    apply hne
    cases h
    cases k
    simp_all
  simp [get?, set, hi]

theorem fundamental_known {g : Graph} {words : List String} {h : Handle}
    (hf : g.fundamentals.find? (Specifier.canonicalKey words) = some h) :
    g.fundamental words = (h, g) := by
  simp only [fundamental, hf]

theorem fundamental_new {g : Graph} {words : List String}
    (hf : g.fundamentals.find? (Specifier.canonicalKey words) = none) :
    g.fundamental words = (g.next,
      { g.add (.fundamental (.ofKey (Specifier.canonicalKey words))) with
        fundamentals := g.fundamentals.insert (Specifier.canonicalKey words) g.next }) := by
  simp only [fundamental, hf]

/-! ## What an edit that succeeds has done -/

theorem assignTarget_ok {g g' : Graph} {h target : Handle} (hg : g.assignTarget h target = .ok g') :
    ∃ d, g.get? h = some (.typedef d) ∧ d.target = none ∧
      g' = g.set h (.typedef { d with target := some target }) := by
  unfold assignTarget at hg
  split at hg
  · rename_i d hd
    split at hg
    · cases hg
    · rename_i ht
      cases hg
      exact ⟨d, hd, ht, rfl⟩
  · cases hg

theorem modifyContainer_ok {g g' : Graph} {h : Handle} {f : Container → Container}
    (hg : g.modifyContainer h f = .ok g') :
    ∃ kind c, g.get? h = some (.container kind c) ∧ g' = g.set h (.container kind (f c)) := by
  unfold modifyContainer at hg
  split at hg
  · rename_i kind c hc
    cases hg
    exact ⟨kind, c, hc, rfl⟩
  · cases hg

end Graph

/-! ## What a node may become -/

/-- The aggregate of a tag may get another body, and a typedef its first target. -/
inductive Node.Becomes : Node → Node → Prop where
  | refl (n : Node) : Becomes n n
  | container (kind : ContainerKind) {c c' : Container} (tag : c'.tag = c.tag) :
    Becomes (.container kind c) (.container kind c')
  | enumeration {e e' : Enumeration} (tag : e'.tag = e.tag) :
    Becomes (.enumeration e) (.enumeration e')
  | typedef {d d' : Typedef} (name : d'.name = d.name) (target : d.target = none) :
    Becomes (.typedef d) (.typedef d')

theorem Node.Becomes.trans {l m n : Node} (h₁ : Becomes l m) (h₂ : Becomes m n) : Becomes l n := by
  cases h₁ with
  | refl => exact h₂
  | container kind tag₁ =>
    cases h₂ with
    | refl => exact .container kind tag₁
    | container _ tag₂ => exact .container kind (tag₂.trans tag₁)
  | enumeration tag₁ =>
    cases h₂ with
    | refl => exact .enumeration tag₁
    | enumeration tag₂ => exact .enumeration (tag₂.trans tag₁)
  | typedef name₁ target₁ =>
    cases h₂ with
    | refl => exact .typedef name₁ target₁
    | typedef name₂ _ => exact .typedef (name₂.trans name₁) target₁

namespace Graph

/-- Every node of `g` is still there in `g'`, as something it may become. -/
def Grows (g g' : Graph) : Prop :=
  ∀ h n, g.get? h = some n → ∃ n', g'.get? h = some n' ∧ n.Becomes n'

theorem Grows.refl (g : Graph) : g.Grows g := fun _ n hn => ⟨n, hn, .refl n⟩

theorem Grows.trans {g₁ g₂ g₃ : Graph} (h₁ : g₁.Grows g₂) (h₂ : g₂.Grows g₃) : g₁.Grows g₃ := by
  intro h n hn
  obtain ⟨n₂, hn₂, hb₁⟩ := h₁ h n hn
  obtain ⟨n₃, hn₃, hb₂⟩ := h₂ h n₂ hn₂
  exact ⟨n₃, hn₃, hb₁.trans hb₂⟩

theorem Grows.lt {g g' : Graph} (hg : g.Grows g') {h : Handle} (hh : h.index < g.size) :
    h.index < g'.size := by
  obtain ⟨n, hn⟩ := get?_of_lt hh
  obtain ⟨n', hn', _⟩ := hg h n hn
  exact lt_of_get? hn'

theorem grows_add (g : Graph) (n : Node) : g.Grows (g.add n) :=
  fun _ m hm => ⟨m, get?_add_of_some hm n, .refl m⟩

theorem grows_set {g : Graph} {h : Handle} {m n : Node} (hm : g.get? h = some m)
    (hb : m.Becomes n) : g.Grows (g.set h n) := by
  intro k l hl
  by_cases hk : k = h
  · subst hk
    rw [hm] at hl
    cases hl
    exact ⟨n, get?_set_self hm n, hb⟩
  · exact ⟨l, (get?_set_ne g hk n).trans hl, .refl l⟩

/-! ## What growth keeps -/

section
variable {g g' : Graph} (hg : g.Grows g')
include hg

theorem Grows.pointer {h k : Handle} (hn : g.get? h = some (.pointer k)) :
    g'.get? h = some (.pointer k) := by
  obtain ⟨n, hn', hb⟩ := hg h _ hn
  cases hb
  exact hn'

theorem Grows.array {h k : Handle} {dim : Option UInt64} (hn : g.get? h = some (.array k dim)) :
    g'.get? h = some (.array k dim) := by
  obtain ⟨n, hn', hb⟩ := hg h _ hn
  cases hb
  exact hn'

theorem Grows.fundamental {h : Handle} {t : Fundamental} (hn : g.get? h = some (.fundamental t)) :
    g'.get? h = some (.fundamental t) := by
  obtain ⟨n, hn', hb⟩ := hg h _ hn
  cases hb
  exact hn'

theorem Grows.function {h : Handle} {f : Function} (hn : g.get? h = some (.function f)) :
    g'.get? h = some (.function f) := by
  obtain ⟨n, hn', hb⟩ := hg h _ hn
  cases hb
  exact hn'

theorem Grows.container {h : Handle} {kind : ContainerKind} {c : Container}
    (hn : g.get? h = some (.container kind c)) :
    ∃ c', g'.get? h = some (.container kind c') ∧ c'.tag = c.tag := by
  obtain ⟨n, hn', hb⟩ := hg h _ hn
  cases hb with
  | refl => exact ⟨c, hn', rfl⟩
  | container _ tag => exact ⟨_, hn', tag⟩

theorem Grows.enumeration {h : Handle} {e : Enumeration} (hn : g.get? h = some (.enumeration e)) :
    ∃ e', g'.get? h = some (.enumeration e') ∧ e'.tag = e.tag := by
  obtain ⟨n, hn', hb⟩ := hg h _ hn
  cases hb with
  | refl => exact ⟨e, hn', rfl⟩
  | enumeration tag => exact ⟨_, hn', tag⟩

theorem Grows.typedef {h : Handle} {d : Typedef} (hn : g.get? h = some (.typedef d)) :
    ∃ d', g'.get? h = some (.typedef d') ∧ d'.name = d.name := by
  obtain ⟨n, hn', hb⟩ := hg h _ hn
  cases hb with
  | refl => exact ⟨d, hn', rfl⟩
  | typedef name _ => exact ⟨_, hn', name⟩

end

end Graph

end CythonDecls
