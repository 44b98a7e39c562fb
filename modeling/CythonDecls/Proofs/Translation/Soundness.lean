import CythonDecls.Proofs.Translation.Steps

/-!
# Sound translators

A translator is sound when its graph is closed and every table entry names a
node of the right kind under the right name. Each walk, whether it ends in a
result or in an error, leads from a sound translator to a sound one that
extends it: the graph has grown and no table entry is lost. So what a result
says about the graph stays true however the translation goes on.
-/

namespace CythonDecls

def Node.isDeclaration : Node → Bool
  | .fundamental _ => false
  | .pointer _ => false
  | .array .. => false
  | _ => true

namespace Translator

structure Sound (t : Translator) : Prop where
  closed : t.graph.Closed
  fundamentals : ∀ key h, t.graph.fundamentals.find? key = some h →
    t.graph.get? h = some (.fundamental (.ofKey key))
  typedefs : ∀ name h, t.typedefs.find? name = some h →
    ∃ d, t.graph.get? h = some (.typedef d) ∧ d.name = name
  containers : ∀ kind tag h, (t.containers kind).find? tag = some h →
    ∃ c, t.graph.get? h = some (.container kind c) ∧ c.tag = some tag
  enums : ∀ tag h, t.enums.find? tag = some h →
    ∃ e, t.graph.get? h = some (.enumeration e) ∧ e.tag = some tag
  functions : ∀ name h, t.functions.find? name = some h →
    ∃ f, t.graph.get? h = some (.function f) ∧ f.name = name
  hoisted : ∀ h ∈ t.hoisted, ∃ n, t.graph.get? h = some n ∧ n.isAggregate = true
  items : ∀ h ∈ t.graph.module.items, ∃ n, t.graph.get? h = some n ∧ n.isDeclaration = true

/-- The graph has grown and no table entry is lost. -/
structure Extends (t t' : Translator) : Prop where
  graph : t.graph.Grows t'.graph
  typedefs : ∀ name h, t.typedefs.find? name = some h → t'.typedefs.find? name = some h
  containers : ∀ kind tag h, (t.containers kind).find? tag = some h →
    (t'.containers kind).find? tag = some h
  enums : ∀ tag h, t.enums.find? tag = some h → t'.enums.find? tag = some h
  functions : ∀ name h, t.functions.find? name = some h → t'.functions.find? name = some h

theorem Extends.refl (t : Translator) : t.Extends t :=
  ⟨.refl _, fun _ _ => id, fun _ _ _ => id, fun _ _ => id, fun _ _ => id⟩

theorem Extends.trans {t₁ t₂ t₃ : Translator} (h₁ : t₁.Extends t₂) (h₂ : t₂.Extends t₃) :
    t₁.Extends t₃ where
  graph := h₁.graph.trans h₂.graph
  typedefs n h hn := h₂.typedefs n h (h₁.typedefs n h hn)
  containers kind n h hn := h₂.containers kind n h (h₁.containers kind n h hn)
  enums n h hn := h₂.enums n h (h₁.enums n h hn)
  functions n h hn := h₂.functions n h (h₁.functions n h hn)

/-- Walking inside an item declares nothing, and forgets no definition to hoist. -/
structure Within (t t' : Translator) : Prop where
  typedefs : t'.typedefs = t.typedefs
  functions : t'.functions = t.functions
  module : t'.graph.module = t.graph.module
  hoisted : ∀ h ∈ t.hoisted, h ∈ t'.hoisted

theorem Within.refl (t : Translator) : t.Within t := ⟨rfl, rfl, rfl, fun _ => id⟩

theorem Within.trans {t₁ t₂ t₃ : Translator} (h₁ : t₁.Within t₂) (h₂ : t₂.Within t₃) :
    t₁.Within t₃ :=
  ⟨h₂.typedefs.trans h₁.typedefs, h₂.functions.trans h₁.functions, h₂.module.trans h₁.module,
    fun h hh => h₂.hoisted h (h₁.hoisted h hh)⟩

theorem Sound.start : Sound start := by
  constructor
  case closed => exact .empty
  case containers => intro kind; cases kind <;> exact fun _ _ h => nomatch h
  case hoisted => exact fun _ h => nomatch h
  case items => exact fun _ h => nomatch h
  all_goals exact fun _ _ h => nomatch h

end Translator

theorem Node.Becomes.isAggregate {m n : Node} (h : Becomes m n) :
    n.isAggregate = m.isAggregate := by
  cases h <;> rfl

theorem Node.Becomes.isDeclaration {m n : Node} (h : Becomes m n) :
    n.isDeclaration = m.isDeclaration := by
  cases h <;> rfl

namespace Translator

theorem Sound.withGraph {t : Translator} (s : t.Sound) {g : Graph} (hg : t.graph.Grows g)
    (hc : g.Closed) (hf : g.fundamentals = t.graph.fundamentals)
    (hm : g.module = t.graph.module) : Sound { t with graph := g } where
  closed := hc
  fundamentals key h hk := by
    simp only [hf] at hk
    exact hg.fundamental (s.fundamentals key h hk)
  typedefs name h hn := by
    obtain ⟨d, hd, hname⟩ := s.typedefs name h hn
    obtain ⟨d', hd', hname'⟩ := hg.typedef hd
    exact ⟨d', hd', hname'.trans hname⟩
  containers kind tag h hn := by
    have hn' : (t.containers kind).find? tag = some h := by cases kind <;> exact hn
    obtain ⟨c, hc, htag⟩ := s.containers kind tag h hn'
    obtain ⟨c', hc', htag'⟩ := hg.container hc
    exact ⟨c', hc', htag'.trans htag⟩
  enums tag h hn := by
    obtain ⟨e, he, htag⟩ := s.enums tag h hn
    obtain ⟨e', he', htag'⟩ := hg.enumeration he
    exact ⟨e', he', htag'.trans htag⟩
  functions name h hn := by
    obtain ⟨f, hf, hname⟩ := s.functions name h hn
    exact ⟨f, hg.function hf, hname⟩
  hoisted h hh := by
    obtain ⟨n, hn, ha⟩ := s.hoisted h hh
    obtain ⟨n', hn', hb⟩ := hg h n hn
    exact ⟨n', hn', hb.isAggregate.trans ha⟩
  items h hh := by
    simp only [hm] at hh
    obtain ⟨n, hn, hi⟩ := s.items h hh
    obtain ⟨n', hn', hb⟩ := hg h n hn
    exact ⟨n', hn', hb.isDeclaration.trans hi⟩

theorem Extends.withGraph {t : Translator} {g : Graph} (hg : t.graph.Grows g) :
    t.Extends { t with graph := g } where
  graph := hg
  typedefs _ _ := id
  containers kind _ _ := by cases kind <;> exact id
  enums _ _ := id
  functions _ _ := id

theorem Sound.withHoisted {t : Translator} (s : t.Sound) {hs : List Handle}
    (hh : ∀ h ∈ hs, ∃ n, t.graph.get? h = some n ∧ n.isAggregate = true) :
    Sound { t with hoisted := hs } where
  closed := s.closed
  fundamentals := s.fundamentals
  typedefs := s.typedefs
  containers
    | .struct => s.containers .struct
    | .union => s.containers .union
  enums := s.enums
  functions := s.functions
  hoisted := hh
  items := s.items

theorem Extends.withHoisted {t : Translator} {hs : List Handle} :
    t.Extends { t with hoisted := hs } where
  graph := .refl _
  typedefs _ _ := id
  containers
    | .struct => fun _ _ => id
    | .union => fun _ _ => id
  enums _ _ := id
  functions _ _ := id

theorem Sound.withInvented {t : Translator} (s : t.Sound) (tags : List String) :
    Sound { t with invented := tags } where
  closed := s.closed
  fundamentals := s.fundamentals
  typedefs := s.typedefs
  containers
    | .struct => s.containers .struct
    | .union => s.containers .union
  enums := s.enums
  functions := s.functions
  hoisted := s.hoisted
  items := s.items

theorem Extends.withInvented {t : Translator} (tags : List String) :
    t.Extends { t with invented := tags } where
  graph := .refl _
  typedefs _ _ := id
  containers
    | .struct => fun _ _ => id
    | .union => fun _ _ => id
  enums _ _ := id
  functions _ _ := id

theorem Sound.lookup {t : Translator} (s : t.Sound) {key : Option ContainerKind × String}
    {h : Handle} (hf : t.lookup key = some h) :
    ∃ n, t.graph.get? h = some n ∧ n.key? = some key := by
  obtain ⟨kind, tag⟩ := key
  cases kind with
  | some kind =>
    obtain ⟨c, hn, ht⟩ := s.containers kind tag h hf
    exact ⟨_, hn, by simp only [Node.key?, ht, Option.map_some]⟩
  | none =>
    obtain ⟨e, hn, ht⟩ := s.enums tag h hf
    exact ⟨_, hn, by simp only [Node.key?, ht, Option.map_some]⟩

theorem Extends.lookup {t t' : Translator} (e : t.Extends t')
    {key : Option ContainerKind × String} {h : Handle} (hk : t.lookup key = some h) :
    t'.lookup key = some h := by
  obtain ⟨_ | kind, tag⟩ := key
  · exact e.enums tag h hk
  · exact e.containers kind tag h hk

/-! ## New table entries -/

section
variable {t : Translator} {h : Handle}

theorem Sound.enter (s : t.Sound) {n : Node} {key : Option ContainerKind × String}
    (hn : t.graph.get? h = some n) (hk : n.key? = some key) : (t.enter key h).Sound := by
  have hlook {k : Option ContainerKind × String} {j : Handle}
      (hj : (t.enter key h).lookup k = some j) :
          ∃ m, t.graph.get? j = some m ∧ m.key? = some k := by
    rw [lookup_enter] at hj
    split at hj
    · rename_i he
      cases hj
      exact ⟨n, hn, he ▸ hk⟩
    · exact s.lookup hj
  constructor
  case containers =>
    intro kind tag j hj
    obtain ⟨m, hm, hkey⟩ := hlook (k := (some kind, tag)) hj
    obtain ⟨c, rfl, htag⟩ := Node.container_of_key? hkey
    exact ⟨c, by rw [graph_enter, hm], htag⟩
  case enums =>
    intro tag j hj
    obtain ⟨m, hm, hkey⟩ := hlook (k := (none, tag)) hj
    obtain ⟨e, rfl, htag⟩ := Node.enumeration_of_key? hkey
    exact ⟨e, by rw [graph_enter, hm], htag⟩
  case closed => simpa using s.closed
  case fundamentals => simpa using s.fundamentals
  case typedefs => simpa using s.typedefs
  case functions => simpa using s.functions
  case hoisted => simpa using s.hoisted
  case items => simpa using s.items

theorem find?_insert_of_some {κ : Type} [DecidableEq κ] {table : Table κ Handle} {key k : κ}
    {j : Handle} (hf : table.find? key = none) (hk : table.find? k = some j) :
    (table.insert key h).find? k = some j := by
  have hne : k ≠ key := by
    intro he
    rw [he, hf] at hk
    cases hk
  rw [Table.find?_insert, if_neg hne, hk]

theorem Extends.enter {key : Option ContainerKind × String} (hnew : t.lookup key = none) :
    t.Extends (t.enter key h) := by
  have hlook {k : Option ContainerKind × String} {j : Handle} (hk : t.lookup k = some j) :
      (t.enter key h).lookup k = some j := by
    have hne : k ≠ key := by
      rintro rfl
      rw [hnew] at hk
      cases hk
    rw [lookup_enter, if_neg hne, hk]
  constructor
  case containers => exact fun kind tag j hj => hlook (k := (some kind, tag)) hj
  case enums => exact fun tag j hj => hlook (k := (none, tag)) hj
  case graph => simpa using Graph.Grows.refl t.graph
  case typedefs => simp
  case functions => simp

theorem Sound.enterTypedef (s : t.Sound) {d : Typedef}
    (hn : t.graph.get? h = some (.typedef d)) :
    Sound { t with typedefs := t.typedefs.insert d.name h } where
  closed := s.closed
  fundamentals := s.fundamentals
  typedefs name h' hf := by
    rw [Table.find?_insert] at hf
    split at hf
    · rename_i ht
      cases hf
      exact ⟨d, hn, ht.symm⟩
    · exact s.typedefs name h' hf
  containers
    | .struct => s.containers .struct
    | .union => s.containers .union
  enums := s.enums
  functions := s.functions
  hoisted := s.hoisted
  items := s.items

theorem Extends.enterTypedef {name : String} (hf : t.typedefs.find? name = none) :
    t.Extends { t with typedefs := t.typedefs.insert name h } where
  graph := .refl _
  typedefs _ _ := find?_insert_of_some hf
  containers
    | .struct => fun _ _ => id
    | .union => fun _ _ => id
  enums _ _ := id
  functions _ _ := id

theorem Sound.enterFunction (s : t.Sound) {f : Function}
    (hn : t.graph.get? h = some (.function f)) :
    Sound { t with functions := t.functions.insert f.name h } where
  closed := s.closed
  fundamentals := s.fundamentals
  typedefs := s.typedefs
  containers
    | .struct => s.containers .struct
    | .union => s.containers .union
  enums := s.enums
  functions name h' hf := by
    rw [Table.find?_insert] at hf
    split at hf
    · rename_i ht
      cases hf
      exact ⟨f, hn, ht.symm⟩
    · exact s.functions name h' hf
  hoisted := s.hoisted
  items := s.items

theorem Extends.enterFunction {name : String} (hf : t.functions.find? name = none) :
    t.Extends { t with functions := t.functions.insert name h } where
  graph := .refl _
  typedefs _ _ := id
  containers
    | .struct => fun _ _ => id
    | .union => fun _ _ => id
  enums _ _ := id
  functions _ _ := find?_insert_of_some hf

end

end Translator

namespace Walk

open Translator

/-- From `t` the walk leads to a sound extension of `t`, and a result satisfies
`Q` there. -/
def Leads {α : Type} (t : Translator) (w : Walk α) (Q : α → Translator → Prop) : Prop :=
  (w.run t).2.Sound ∧ t.Extends (w.run t).2 ∧ ∀ a, (w.run t).1 = .ok a → Q a (w.run t).2

section
variable {α β : Type} {t : Translator} {w : Walk α} {f : α → Walk β}
  {Q : α → Translator → Prop} {R : β → Translator → Prop}

theorem Leads.ok (h : Leads t w Q) {a : α} {t' : Translator} (hrun : w.run t = (.ok a, t')) :
    t'.Sound ∧ t.Extends t' ∧ Q a t' := by
  unfold Leads at h
  rw [hrun] at h
  exact ⟨h.1, h.2.1, h.2.2 a rfl⟩

theorem Leads.of_run {r : Translator} {v : Walk α} (h : w.run t = v.run r) (e : t.Extends r)
    (hv : Leads r v Q) : Leads t w Q := by
  obtain ⟨s, e', hq⟩ := hv
  rw [← h] at s e' hq
  exact ⟨s, e.trans e', hq⟩

theorem Leads.of_gives {P : α → Translator → Prop} (h : Gives t w P)
    (hp : ∀ a t', P a t' → t'.Sound ∧ t.Extends t' ∧ Q a t') : Leads t w Q := by
  obtain ⟨a, t', hrun, ha⟩ := h
  obtain ⟨s, e, hq⟩ := hp a t' ha
  unfold Leads
  rw [hrun]
  refine ⟨s, e, ?_⟩
  rintro _ ⟨⟩
  exact hq

theorem Leads.of_error {e : TranslateError} (s : t.Sound) (h : w.run t = (.error e, t)) :
    Leads t w Q := by
  unfold Leads
  rw [h]
  exact ⟨s, .refl t, nofun⟩

theorem Leads.pure {a : α} (s : t.Sound) (hq : Q a t) : Leads t (Pure.pure a) Q :=
  ⟨s, .refl t, fun _ h => by cases h; exact hq⟩

theorem Leads.throw (s : t.Sound) (e : TranslateError) : Leads t (MonadExcept.throw e : Walk α) Q :=
  ⟨s, .refl t, fun _ h => by cases h⟩

theorem Leads.bind (hw : Leads t w Q)
    (hf : ∀ a t₁, t₁.Sound → t.Extends t₁ → Q a t₁ → Leads t₁ (f a) R) : Leads t (w >>= f) R := by
  obtain ⟨s, e, hq⟩ := hw
  unfold Leads
  rw [run_bind]
  cases h : w.run t with
  | mk r t₁ =>
    rw [h] at s e hq
    cases r with
    | error err => exact ⟨s, e, fun _ h => by cases h⟩
    | ok a =>
      obtain ⟨s', e', hr⟩ := hf a t₁ s e (hq a rfl)
      exact ⟨s', e.trans e', hr⟩

theorem Leads.weaken {Q' : α → Translator → Prop} (hw : Leads t w Q)
    (h : ∀ a t₁, t₁.Sound → t.Extends t₁ → Q a t₁ → Q' a t₁) : Leads t w Q' :=
  ⟨hw.1, hw.2.1, fun a ha => h a _ hw.1 hw.2.1 (hw.2.2 a ha)⟩

theorem Leads.adapt (hw : Leads t w Q) (f : TranslateError → TranslateError) :
    Leads t (ExceptT.adapt f w) Q := by
  have hrun : (ExceptT.adapt f w).run t = ((w.run t).1.mapError f, (w.run t).2) := by
    rfl
  obtain ⟨s, e, hq⟩ := hw
  unfold Leads
  rw [hrun]
  refine ⟨s, e, fun a ha => hq a ?_⟩
  cases h : (w.run t).1 with
  | ok b =>
    rw [h] at ha
    exact ha
  | error err =>
    rw [h] at ha
    cases ha

theorem Leads.get {f : Translator → Walk β} (hf : Leads t (f t) R) :
    Leads t (MonadState.get >>= f) R := hf

theorem Leads.modify {f : Translator → Translator} (s : (f t).Sound) (e : t.Extends (f t))
    {Q : PUnit → Translator → Prop} (hq : Q ⟨⟩ (f t)) : Leads t (modify f : Walk PUnit) Q :=
  ⟨s, e, fun _ _ => hq⟩

end

end Walk

end CythonDecls
