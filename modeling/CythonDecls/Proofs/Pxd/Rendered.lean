import CythonDecls.Proofs.Pxd.Forwards

/-!
# What an item renders to

In a closed graph every item can be rendered. `Renders` lists what an item may
add to the blocks: the tags that were not met yet, and then its declaration. A
typedef declares its target where nobody else does, and adds a second name if
that has another one.
-/

namespace CythonDecls.Pxd

def ShowsFields (d : Declarator) (fs : List Field) (lines : List (Field × String)) : Prop :=
  List.Forall₂ (fun f p => p.1 = f ∧ d.declare f.type f.name = .ok p.2) fs lines

def Silent (g : Graph) (h : Handle) : Prop :=
  ∃ n, g.get? h = some n ∧ match n with
    | .container _ c => c.tag = none
    | .enumeration e => e.tag = none ∧ e.values = []
    | .typedef t => t.target = none
    | .function _ => False
    | .object _ => False
    | _ => True

def declaredName (n : Node) (t : Typedef) : String := n.tag?.getD t.name

/-- An aggregate without a tag is declared by the typedef alone. -/
def targetWord (n : Node) : String := if n.tag?.isSome then "cdef" else "ctypedef"

def targetHead (n : Node) (t : Typedef) : String :=
  s!"{targetWord n} {keyword n} {declaredName n t}"

/-- A second name, unless it is the first. -/
def Rendering.synonym (r : Rendering) (h target : Handle) (declared name : String) : Rendering :=
  if declared = name then r else r.push (.synonym h target declared name)

theorem Rendering.names_synonym (r : Rendering) (h target : Handle) (declared name : String) :
    (r.synonym h target declared name).names = r.names := by
  unfold synonym
  split <;> rfl

theorem Rendering.defined_synonym (r : Rendering) (h target : Handle) (declared name : String) :
    (r.synonym h target declared name).defined = r.defined := by
  unfold synonym
  split <;> rfl

structure Owns (g : Graph) (r : Rendering) (t : Typedef) (k : Handle) (n : Node) : Prop where
  target : t.target = some k
  node : g.get? k = some n
  aggregate : n.isAggregate = true
  free : k ∉ g.module.items
  new : k ∉ r.defined

/-- What rendering the item `h` makes of `r`. -/
inductive Renders (g : Graph) (r : Rendering) (h : Handle) : Rendering → Prop where
  | silent (silent : Silent g h) : Renders g r h r
  | container {kind : ContainerKind} {c : Container} {tag : String} {hs : List Handle}
      {r₁ : Rendering} {lines : List (Field × String)}
      (node : g.get? h = some (.container kind c)) (tagged : c.tag = some tag)
      (mentions : mentioned g (c.fields.map (·.type)) = .ok hs)
      (forwards : Forwards g h hs (r.define h tag) r₁)
      (shows : ShowsFields (r₁.declarator g) c.fields lines) :
      Renders g r h (r₁.push (.container h s!"cdef {kind.keyword} {tag}" lines))
  | enumeration {e : Enumeration} {tag : String} (node : g.get? h = some (.enumeration e))
      (tagged : e.tag = some tag) :
      Renders g r h ((r.define h tag).push (.enumeration h s!"cdef enum {tag}" e.values))
  | values {e : Enumeration} (node : g.get? h = some (.enumeration e)) (untagged : e.tag = none)
      (values : e.values ≠ []) : Renders g r h (r.push (.enumeration h "cdef enum" e.values))
  | ownContainer {t : Typedef} {k : Handle} {kind : ContainerKind} {c : Container}
      {hs : List Handle} {r₁ : Rendering} {lines : List (Field × String)}
      (node : g.get? h = some (.typedef t)) (owns : Owns g r t k (.container kind c))
      (mentions : mentioned g (c.fields.map (·.type)) = .ok hs)
      (forwards : Forwards g k hs (r.define k (declaredName (.container kind c) t)) r₁)
      (shows : ShowsFields (r₁.declarator g) c.fields lines) :
      Renders g r h ((r₁.push (.container k (targetHead (.container kind c) t) lines)).synonym h k
        (declaredName (.container kind c) t) t.name)
  | ownEnumeration {t : Typedef} {k : Handle} {e : Enumeration}
      (node : g.get? h = some (.typedef t)) (owns : Owns g r t k (.enumeration e)) :
      Renders g r h (((r.define k (declaredName (.enumeration e) t)).push
        (.enumeration k (targetHead (.enumeration e) t) e.values)).synonym h k
        (declaredName (.enumeration e) t) t.name)
  | named {t : Typedef} {k : Handle} {n : Node} {hs : List Handle} {r₁ : Rendering}
      (node : g.get? h = some (.typedef t)) (target : t.target = some k) (inner : g.get? k = some n)
      (aggregate : n.isAggregate = true) (declared : ¬Owns g r t k n)
      (mentions : mentioned g [k] = .ok hs) (forwards : Forwards g h hs r r₁)
      (same : (r₁.declarator g).typeName k = .ok t.name) : Renders g r h r₁
  | typedef {t : Typedef} {k : Handle} {n : Node} {hs : List Handle} {r₁ : Rendering}
    {text : String}
      (node : g.get? h = some (.typedef t)) (target : t.target = some k) (inner : g.get? k = some n)
      (declared : ¬Owns g r t k n) (mentions : mentioned g [k] = .ok hs)
      (forwards : Forwards g h hs r r₁)
      (shows : (r₁.declarator g).declare k t.name = .ok text) :
      Renders g r h (r₁.push (.typedef h k text))
  | function {f : Function} {hs : List Handle} {r₁ : Rendering} {text : String}
      (node : g.get? h = some (.function f))
      (mentions : mentioned g (f.returns :: f.arguments.map (·.type)) = .ok hs)
      (forwards : Forwards g h hs r r₁)
      (shows : (r₁.declarator g).declare h f.name = .ok text) :
      Renders g r h (r₁.push (.function h text))
  | object {v : Variable} {hs : List Handle} {r₁ : Rendering} {text : String}
      (node : g.get? h = some (.object v)) (mentions : mentioned g [v.type] = .ok hs)
      (forwards : Forwards g h hs r r₁)
      (shows : (r₁.declarator g).declare v.type v.name = .ok text) :
      Renders g r h (r₁.push (.object h v.type text))

namespace Rendering

section
variable {g : Graph} (hg : g.Closed)
include hg

theorem container_runs (r : Rendering) {h : Handle} {kind : ContainerKind} {c : Container}
    (hn : g.get? h = some (.container kind c)) (head : String) :
    ∃ hs r₁ lines, r.container g h head c = .ok (r₁.push (.container h head lines)) ∧
      mentioned g (c.fields.map (·.type)) = .ok hs ∧ Forwards g h hs r r₁ ∧
        ShowsFields (r₁.declarator g) c.fields lines := by
  have hfields (f : Field) (hf : f ∈ c.fields) : f.type.index < g.size :=
    hg.inRange h _ hn _ (List.mem_map_of_mem hf)
  obtain ⟨hs, r₁, hm, hr₁, hforward⟩ :=
    forward_runs hg r (c.fields.map Field.type) (hg.inRange h _ hn) h
  obtain ⟨lines, hlines, hall⟩ := mapM_ok
    (f := fun f : Field => do return (f, ← (r₁.declarator g).declare f.type f.name)) fun f hf => by
      obtain ⟨s, hs⟩ := declare_ok (r₁.declarator g) hg (hfields f hf) f.name
      exact ⟨(f, s), by rw [hs]; rfl⟩
  refine ⟨hs, r₁, lines, ?_, hm, hforward, hall.imp fun f p hp => ?_⟩
  · unfold container
    rw [hr₁]
    show (c.fields.mapM (fun f => do return (f, ← (r₁.declarator g).declare f.type f.name)) >>=
      fun lines => pure (r₁.push (.container h head lines))) = _
    rw [hlines]
    rfl
  · cases hd : (r₁.declarator g).declare f.type f.name with
    | error e =>
      rw [hd] at hp
      cases hp
    | ok s =>
      rw [hd] at hp
      cases hp
      exact ⟨rfl, rfl⟩

theorem typedef_runs (r : Rendering) {h : Handle} {t : Typedef}
    (hn : g.get? h = some (.typedef t)) : ∃ r', r.typedef g h t = .ok r' ∧ Renders g r h r' := by
  unfold typedef
  cases ht : t.target with
  | none => exact ⟨r, rfl, .silent ⟨_, hn, ht⟩⟩
  | some k =>
    obtain ⟨n, hk, hget⟩ := exists_get (hg.inRange h _ hn k (by simp [Node.children, ht]))
    have howns : (n.isAggregate = true ∧ ¬g.isItem k = true ∧ ¬r.defined.contains k = true) ↔
        Owns g r t k n := by
      simp only [Graph.isItem, Module.contains, List.contains_iff_mem]
      constructor
      · rintro ⟨ha, hi, hd⟩
        exact ⟨ht, hk, ha, hi, hd⟩
      · exact fun ho => ⟨ho.aggregate, ho.free, ho.new⟩
    simp only [hget, bind, Except.bind]
    by_cases ho : Owns g r t k n
    · rw [if_pos (howns.mpr ho)]
      cases n with
      | container kind c =>
        obtain ⟨hs, r₁, lines, hr₁, hm, hf, hs⟩ := container_runs hg
          (r.define k (declaredName (.container kind c) t)) hk (targetHead (.container kind c) t)
        refine ⟨_, ?_, .ownContainer hn ho hm hf hs⟩
        show (do
          let r ← (r.define k (declaredName (.container kind c) t)).container g k
            (targetHead (.container kind c) t) c
          return if declaredName (.container kind c) t = t.name then r else _) = _
        rw [hr₁]
        rfl
      | enumeration e => exact ⟨_, rfl, .ownEnumeration hn ho⟩
      | _ => cases ho.aggregate
    · rw [if_neg fun h => ho (howns.mp h)]
      have hrange : ∀ j ∈ [k], j.index < g.size := by
        intro j hj
        rw [List.mem_singleton.mp hj]
        exact Graph.lt_of_get? hk
      obtain ⟨hs, r₁, hm, hr₁, hf⟩ := forward_runs hg r [k] hrange h
      obtain ⟨text, htext⟩ := declare_ok (r₁.declarator g) hg (Graph.lt_of_get? hk) t.name
      obtain ⟨name, hname⟩ := exists_typeName (r₁.declarator g) (h := k) (Graph.lt_of_get? hk)
      simp only [hr₁, htext, hname]
      by_cases hc : n.isAggregate = true ∧ name = t.name
      · obtain ⟨ha, rfl⟩ := hc
        exact ⟨r₁, by simp only [ha, true_and, if_true]; rfl, .named hn ht hk ha ho hm hf hname⟩
      · exact ⟨_, by simp only [hc, if_false]; rfl, .typedef hn ht hk ho hm hf htext⟩

theorem item_runs (r : Rendering) {h : Handle} (hh : h.index < g.size) :
    ∃ r', r.item g h = .ok r' ∧ Renders g r h r' := by
  obtain ⟨n, hn, hget⟩ := exists_get hh
  unfold item
  simp only [hget, bind, Except.bind]
  cases n with
  | container kind c =>
    cases ht : c.tag with
    | none => exact ⟨r, by simp only [ht]; rfl, .silent ⟨_, hn, ht⟩⟩
    | some tag =>
      obtain ⟨hs, r₁, lines, hr₁, hm, hf, hs⟩ :=
        container_runs hg (r.define h tag) hn s!"cdef {kind.keyword} {tag}"
      exact ⟨_, by simp only [ht]; exact hr₁, .container hn ht hm hf hs⟩
  | enumeration e =>
    cases ht : e.tag with
    | none =>
      cases hv : e.values with
      | nil => exact ⟨r, by simp only [ht, hv]; rfl, .silent ⟨_, hn, ht, hv⟩⟩
      | cons v vs => exact ⟨_, by simp only [ht, hv]; rfl, .values hn ht (by simp [hv])⟩
    | some tag => exact ⟨_, by simp only [ht]; rfl, .enumeration hn ht⟩
  | typedef t => exact typedef_runs hg r hn
  | function f =>
    obtain ⟨hs, r₁, hm, hr₁, hf⟩ := forward_runs hg r (f.returns :: f.arguments.map Argument.type)
      (hg.inRange h _ hn) h
    obtain ⟨text, htext⟩ := declare_ok (r₁.declarator g) hg hh f.name
    exact ⟨_, by simp only [hr₁, htext]; rfl, .function hn hm hf htext⟩
  | object v =>
    have hv : v.type.index < g.size := hg.inRange h _ hn _ List.mem_cons_self
    obtain ⟨hs, r₁, hm, hr₁, hf⟩ := forward_runs hg r [v.type] (hg.inRange h _ hn) h
    obtain ⟨text, htext⟩ := declare_ok (r₁.declarator g) hg hv v.name
    exact ⟨_, by simp only [hr₁, htext]; rfl, .object hn hm hf htext⟩
  | _ => exact ⟨r, rfl, .silent ⟨_, hn, trivial⟩⟩

end

end Rendering

end CythonDecls.Pxd
