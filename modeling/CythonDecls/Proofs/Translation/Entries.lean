import CythonDecls.Proofs.Translation.Writes

/-!
# What an item leaves behind

An item is either passed over, because nothing is to be read or its name is
declared already, or it is entered: its bodies are written, one node is put at
the end of the module list, and the bodies that were nested in it are put
right before that.
-/

namespace CythonDecls

/-- The item holds a body itself, and not inside of its type. -/
def Item.defines : Item → Bool
  | .container _ spec => spec.members.isSome
  | .enumeration spec => spec.enumerators.isSome
  | _ => false

def Item.typedefName? : Item → Option String
  | .typedef d => some d.name
  | _ => none

def Item.functionName? : Item → Option String
  | .declaration ⟨name, .function _, _⟩ => name
  | _ => none

/-- The node of `x` is what an item declares. -/
def DeclaresAt (typedefs : Table String Handle) (g : Graph) (x : Handle) : Item → Prop
  | .typedef d => ∃ n c, g.get? x = some (.typedef n) ∧ n.name = d.name ∧ n.target = some c ∧
    Denotes typedefs g d.type c
  | .container kind spec => Denotes typedefs g (.container kind spec) x
  | .enumeration spec => Denotes typedefs g (.enumeration spec) x
  | .declaration ⟨name, type, _⟩ => ∃ n, name = some n ∧
    ((∃ f, g.get? x = some (.function f) ∧ f.name = n ∧ Denotes typedefs g type x) ∨
      ∃ v, g.get? x = some (.object v) ∧ v.name = n ∧ Denotes typedefs g type v.type)
  | .ignored _ => False

theorem DeclaresAt.grow {typedefs : Table String Handle} {g g' : Graph} {x : Handle} {i : Item}
    (h : DeclaresAt typedefs g x i) (hg : g.Grows g') : DeclaresAt typedefs g' x i := by
  cases i with
  | typedef d =>
    obtain ⟨n, c, hn, hname, ht, hd⟩ := h
    obtain ⟨n', hn', hb⟩ := hg x _ hn
    cases hb with
    | refl => exact ⟨n, c, hn', hname, ht, hd.grow hg⟩
    | typedef _ hnone =>
      rw [ht] at hnone
      cases hnone
  | container kind spec => exact Denotes.grow hg _ _ h
  | enumeration spec => exact Denotes.grow hg _ _ h
  | declaration d =>
    obtain ⟨name, type, location⟩ := d
    obtain ⟨n, hname, ⟨f, hf, hfname, hd⟩ | ⟨v, hv, hvname, hd⟩⟩ := h
    · exact ⟨n, hname, .inl ⟨f, hg.function hf, hfname, hd.grow hg⟩⟩
    · obtain ⟨n', hn', hb⟩ := hg x _ hv
      cases hb
      exact ⟨n, hname, .inr ⟨v, hn', hvname, hd.grow hg⟩⟩
  | ignored what => exact h

def Item.sorts : Item → Node → Bool
  | .typedef _, .typedef _ => true
  | .container _ _, .container _ _ => true
  | .enumeration _, .enumeration _ => true
  | .declaration _, .function _ => true
  | .declaration _, .object _ => true
  | _, _ => false

theorem Item.aggregate_of_sorts {i : Item} {n : Node} (h : i.sorts n = true)
    (ha : n.isAggregate = true) :
    (∃ kind spec, i = .container kind spec) ∨ ∃ spec, i = .enumeration spec := by
  cases n with
  | container kind c =>
    cases i with
    | container kind spec => exact .inl ⟨kind, spec, rfl⟩
    | _ => cases h
  | enumeration e =>
    cases i with
    | enumeration spec => exact .inr ⟨spec, rfl⟩
    | _ => cases h
  | _ => cases ha

theorem DeclaresAt.sorts {typedefs : Table String Handle} {g : Graph} {x : Handle} {i : Item}
    (h : DeclaresAt typedefs g x i) {n : Node} (hn : g.get? x = some n) : i.sorts n = true := by
  have hnode {m : Node} (hm : g.get? x = some m) (hs : i.sorts m = true) : i.sorts n = true := by
    rw [hn] at hm
    cases hm
    exact hs
  cases i with
  | typedef d =>
    obtain ⟨_, _, hm, _⟩ := h
    exact hnode hm rfl
  | container kind spec =>
    obtain ⟨tag, ms, location⟩ := spec
    unfold DeclaresAt Denotes at h
    obtain ⟨_, hm, _⟩ := h
    exact hnode hm rfl
  | enumeration spec =>
    obtain ⟨tag, es, location⟩ := spec
    unfold DeclaresAt Denotes at h
    obtain ⟨_, hm, _⟩ := h
    exact hnode hm rfl
  | declaration d =>
    obtain ⟨name, type, location⟩ := d
    obtain ⟨_, _, ⟨_, hm, _⟩ | ⟨_, hm, _⟩⟩ := h
    · exact hnode hm rfl
    · exact hnode hm rfl
  | ignored what => exact h.elim

/-- The aggregate `y` is the node of `x`, or what the typedef of `x` is for. -/
def Item.Aggregate (g : Graph) (x y : Handle) : Item → Prop
  | .typedef d => d.type.isAggregate = true ∧ ∃ n, g.get? x = some (.typedef n) ∧ n.target = some y
  | .container _ _ => y = x
  | .enumeration _ => y = x
  | _ => False

/-- A body of an item has its place, where `hs` were hoisted out of the item
and `x` is its node. -/
def PlacedAt (g : Graph) (ms : List (Body × Handle)) (hs : List Handle) (x : Handle)
    (p : Body × Handle) : Prop :=
  match p.1.place with
  | .item => p.2 = x
  | .target => ∃ d, g.get? x = some (.typedef d) ∧ d.target = some p.2
  | .member => ∃ q ∈ ms, q.1.place ≠ .spliced ∧ g.Inline q.2 p.2
  | .spliced => True
  | .nested => p.2 ∈ hs ∧ ∀ kind c, g.get? p.2 = some (.container kind c) → c.tag.isSome = true

/-- What is left of an item that was read: its node, its bodies, those of them
that were hoisted, and the typedefs that were known before. -/
structure Entry where
  item : Item
  node : Handle
  bodies : List (Body × Handle)
  hoisted : List Handle
  known : Table String Handle

/-- Reading the item of `e` leads from `t` to `t'`. -/
structure Entry.Made (e : Entry) (t t' : Translator) : Prop where
  writing : Writing t t' e.item.bodies e.bodies
  tables : ∀ p ∈ e.bodies, BodyAt t'.typedefs t'.graph p.2 p.1
  declares : DeclaresAt t'.typedefs t'.graph e.node e.item
  placed : ∀ p ∈ e.bodies, PlacedAt t'.graph e.bodies e.hoisted e.node p
  nested : ∀ h ∈ e.hoisted, ∃ b, b.place = .nested ∧ (b, h) ∈ e.bodies
  keyed : ∀ y, e.item.Aggregate t'.graph e.node y → t.Keyed t' e.item.key? y
  module : t'.graph.module = ((e.hoisted.filter (· ≠ e.node)).foldl Module.push
    (if e.item.defines then t.graph.module.remove e.node else t.graph.module)).push e.node
  hoisted : t'.hoisted = []
  known : e.known = t.typedefs
  typedefs : t'.typedefs = e.item.typedefName?.elim t.typedefs (t.typedefs.insert · e.node)
  functions : t'.functions = e.item.functionName?.elim t.functions (t.functions.insert · e.node)

/-- Only an aggregate had its node before the item was read. -/
def Entry.Fresh (e : Entry) (t : Translator) : Prop :=
  ∀ n, t.graph.get? e.node = some n → n.isAggregate = true

def Item.Enters (i : Item) (t t' : Translator) : Prop :=
  ∃ e : Entry, e.item = i ∧ e.Fresh t ∧ e.Made t t'

/-- Nothing of an item is read: it has nothing to read, or its name is taken. -/
def Item.Passed (t : Translator) : Item → Prop
  | .typedef d => (t.typedefs.find? d.name).isSome = true
  | .declaration ⟨none, _, _⟩ => True
  | .declaration ⟨some name, .function _, _⟩ => t.functions.contains name = true
  | .ignored _ => True
  | _ => False

namespace Walk

open Translator

section
variable {t t' : Translator} {ms : List (Body × Handle)}

theorem HousedAt.placed {ns : List (Body × Handle)} {P : Handle → Prop} {p : Body × Handle}
    {g : Graph} {x : Handle} (h : HousedAt t ns P p) (hg : ∀ q ∈ ms, g.get? q.2 = t.graph.get? q.2)
    (hp : p ∈ ms) (hns : ∀ q ∈ ns, q ∈ ms)
    (hopen : P p.2 → ∃ q ∈ ms, q.1.place ≠ .spliced ∧ t.graph.Inline q.2 p.2) :
    PlacedAt g ms t.hoisted x p := by
  have hinline {q : Body × Handle} (hq : q ∈ ms) (hi : t.graph.Inline q.2 p.2) :
      g.Inline q.2 p.2 := by
    obtain ⟨kind, c, hc, hf⟩ := hi
    exact ⟨kind, c, (hg q hq).trans hc, hf⟩
  unfold HousedAt at h
  unfold PlacedAt
  cases hplace : p.1.place with
  | nested =>
    rw [hplace] at h
    exact ⟨h.1, fun kind c hc => h.2 kind c ((hg p hp).symm.trans hc)⟩
  | member =>
    rw [hplace] at h
    rcases h with ⟨q, hq, hs, hi⟩ | hp
    · exact ⟨q, hns q hq, hs, hinline (hns q hq) hi⟩
    · obtain ⟨q, hq, hs, hi⟩ := hopen hp
      exact ⟨q, hq, hs, hinline hq hi⟩
  | spliced => trivial
  | item => rw [hplace] at h; exact h.elim
  | target => rw [hplace] at h; exact h.elim

theorem Defined.placed {place : Body.Place} {h : Handle} {g : Graph} {x : Handle}
    (hd : Defined t place h ms) (hg : ∀ p ∈ ms, g.get? p.2 = t.graph.get? p.2)
    (hs : place ≠ .spliced) (hself : ∀ b, b.place = place → PlacedAt g ms t.hoisted x (b, h)) :
    ∀ p ∈ ms, PlacedAt g ms t.hoisted x p := by
  obtain ⟨ns, b, rfl, hb, hn⟩ := hd
  intro p hp
  rcases List.mem_append.mp hp with hp' | hp'
  · refine (hn p hp').placed hg hp (fun _ => List.mem_append_left _) fun hi => ?_
    exact ⟨(b, h), List.mem_append_right _ (List.mem_singleton_self _), hb ▸ hs, hi⟩
  · rw [List.mem_singleton.mp hp']
    exact hself b hb

end

/-! ## Placing -/

/-- The state behind an item, put together from the one behind its walk. -/
def placedState (t : Translator) (x : Handle) (base : Module) : Translator :=
  { t with
    graph := { t.graph with module := ((t.hoisted.filter (· ≠ x)).foldl Module.push base).push x }
    hoisted := [] }

theorem place_run (t : Translator) (x : Handle) :
    (place x).run t = (.ok ⟨⟩, placedState t x t.graph.module) := rfl

theorem placeTagged_run (t : Translator) (x : Handle) (defines : Bool) :
    (placeTagged x defines).run t =
      (.ok ⟨⟩, placedState t x (if defines then t.graph.module.remove x else t.graph.module)) := by
  cases defines <;> rfl

theorem placedState_of_mem {t : Translator} {x : Handle} (hh : t.hoisted = [])
    (hx : x ∈ t.graph.module.items) : placedState t x t.graph.module = t := by
  obtain ⟨⟨nodes, fundamentals, module⟩, _, _, _, _, _, _, hoisted⟩ := t
  cases hh
  have : module.push x = module := by
    simp only [Module.push, Module.contains, List.contains_iff_mem.mpr hx, if_true]
  simp only [placedState, List.filter_nil, List.foldl_nil, this]

theorem mem_placedState (t : Translator) (x : Handle) (base : Module) :
    x ∈ (placedState t x base).graph.module.items := Module.mem_push.mpr (.inr rfl)

theorem typedef_passes {t : Translator} (d : TypedefDecl) {h : Handle}
    (hf : t.typedefs.find? d.name = some h) (hh : t.hoisted = [])
    (hitem : h ∈ t.graph.module.items) : (item (.typedef d)).run t = (.ok ⟨⟩, t) := by
  show ExceptT.bindCont place ((typedef d).run t).1 ((typedef d).run t).2 = _
  rw [typedef_known d hf]
  show (place h).run t = _
  rw [place_run, placedState_of_mem hh hitem]

theorem lookup_placed (t : Translator) (x : Handle) (base : Module)
    (key : Option ContainerKind × String) : (placedState t x base).lookup key = t.lookup key :=
  congrFun (lookup_congr rfl rfl rfl) key

theorem step_placed (t : Translator) (x : Handle) (base : Module) :
    t.Step (placedState t x base) [] where
  kept _ _ hn _ _ := hn
  bodies _ _ hn _ _ := hn
  size := Nat.le_refl _
  tags key _ hk := .inl ((lookup_placed t x base key).symm.trans hk)

theorem extends_placed (t : Translator) (x : Handle) (base : Module) :
    t.Extends (placedState t x base) where
  graph := .refl _
  typedefs _ _ := id
  containers kind := by cases kind <;> exact fun _ _ => id
  enums _ _ := id
  functions _ _ := id

theorem step_named (t : Translator) (functions : Table String Handle) :
    t.Step { t with functions } [] := by
  refine ⟨fun _ _ hn _ _ => hn, fun _ _ hn _ _ => hn, Nat.le_refl _, ?_⟩
  rintro ⟨_ | kind, tag⟩ h hk
  · exact .inl hk
  · cases kind <;> exact .inl hk

/-! ## Items -/

theorem get?_next_before {t t₁ : Translator} (e : t.Extends t₁) :
    t.graph.get? t₁.graph.next = none := by
  cases hn : t.graph.get? t₁.graph.next with
  | none => rfl
  | some n =>
    obtain ⟨_, hn', _⟩ := e.graph _ n hn
    rw [Graph.get?_next] at hn'
    cases hn'

theorem aggregate_before {t t₁ : Translator} (e : t.Extends t₁) {typedefs : Table String Handle}
    {type : TypeExpr} {x : Handle} (hd : Denotes typedefs t₁.graph type x)
    (ha : type.isAggregate = true) : ∀ n, t.graph.get? x = some n → n.isAggregate = true := by
  intro n hn
  obtain ⟨m, hm, hfits⟩ := hd.fits
  obtain ⟨m', hm', hb⟩ := e.graph x n hn
  rw [hm] at hm'
  cases hm'
  rw [← hb.isAggregate]
  cases type <;> cases m <;> simp_all [TypeExpr.fits, TypeExpr.isAggregate, Node.isAggregate]

theorem enters {i : Item} {t t₁ : Translator} {ms : List (Body × Handle)} {x : Handle}
    (hms : Writing t t₁ i.bodies ms) (htables : ∀ p ∈ ms, BodyAt t₁.typedefs t₁.graph p.2 p.1)
    (hh : t.hoisted = [])
    (hfresh : ∀ n, t.graph.get? x = some n → n.isAggregate = true)
    (hd : DeclaresAt t₁.typedefs t₁.graph x i) (hp : ∀ p ∈ ms, PlacedAt t₁.graph ms t₁.hoisted x p)
    (hkeyed : ∀ y, i.Aggregate t₁.graph x y → t.Keyed t₁ i.key? y)
    (hm : t₁.graph.module = t.graph.module)
    (htd : t₁.typedefs = i.typedefName?.elim t.typedefs (t.typedefs.insert · x))
    (hfn : t₁.functions = i.functionName?.elim t.functions (t.functions.insert · x)) :
    i.Enters t (placedState t₁ x
      (if i.defines then t₁.graph.module.remove x else t₁.graph.module)) := by
  refine ⟨⟨i, x, ms, t₁.hoisted, t.typedefs⟩, rfl, hfresh, ?_⟩
  constructor
  case writing =>
    exact hms.then_step (extends_placed ..) (step_placed ..) fun _ hk => nomatch hk
  case tables => exact fun p hp => (htables p hp).grow (extends_placed t₁ x _).graph fun _ => id
  case declares => exact DeclaresAt.grow hd (extends_placed t₁ x _).graph
  case placed => exact hp
  case nested =>
    intro h hhoisted
    rcases hms.hoisted h hhoisted with hmem | hb
    · rw [hh] at hmem
      cases hmem
    · exact hb
  case keyed =>
    intro y hy
    refine ⟨(hkeyed y hy).origin, fun hnone key => ?_⟩
    rw [lookup_placed]
    exact (hkeyed y hy).untagged hnone key
  case module =>
    rw [← hm]
    rfl
  case hoisted => rfl
  case known => rfl
  case typedefs => exact htd
  case functions => exact hfn

section
variable {t : Translator} (s : t.Sound)
include s

theorem container_enters (kind : ContainerKind) (spec : ContainerSpec) (hh : t.hoisted = [])
    (hk : ((spec.bodies kind .item).filterMap Body.key?).Nodup) :
    Ensures t (item (.container kind spec)) fun _ t' =>
      Item.Enters (.container kind spec) t t' := by
  unfold item
  refine .bind (container_leads s kind none spec)
    (walks_write.2.2.2.1 kind none spec t .item s hk) ?_
  rintro h t₁ s₁ e ⟨hw, hd⟩ ⟨ms, hms, hdef, _, _, hkeyed⟩ _ t' hrun
  rw [placeTagged_run] at hrun
  cases hrun
  refine enters hms (hms.tables hw.typedefs) hh (aggregate_before e hd rfl) (hw.typedefs ▸ hd) ?_
    (fun y hy => hy ▸ hkeyed) hw.module hw.typedefs
    hw.functions
  intro p hp
  cases hspec : spec.members with
  | some inner =>
    refine (hdef (by rw [hspec]; rfl)).placed (fun _ _ => rfl) (by decide) (fun b hb => ?_) p hp
    unfold PlacedAt
    rw [hb]
  | none =>
    obtain ⟨tag, _, location⟩ := spec
    subst hspec
    rw [List.map_eq_nil_iff.mp hms.bodies] at hp
    cases hp

theorem enumeration_enters (spec : EnumSpec) (hh : t.hoisted = []) :
    Ensures t (item (.enumeration spec)) fun _ t' =>
      Item.Enters (.enumeration spec) t t' := by
  unfold item
  refine .bind (enumeration_leads s spec none) (enumeration_writes s .item spec none) ?_
  rintro h t₁ s₁ e ⟨hw, hd⟩ ⟨ms, hms, hdef, hkeyed⟩ _ t' hrun
  rw [placeTagged_run] at hrun
  cases hrun
  refine enters hms (hms.tables hw.typedefs) hh (aggregate_before e hd rfl) hd ?_
    (fun y hy => hy ▸ hkeyed) hw.module hw.typedefs hw.functions
  intro p hp
  cases hspec : spec.enumerators with
  | some es =>
    refine (hdef (by rw [hspec]; rfl)).placed (fun _ _ => rfl) (by decide) (fun b hb => ?_) p hp
    unfold PlacedAt
    rw [hb]
  | none =>
    obtain ⟨tag, _, location⟩ := spec
    subst hspec
    rw [List.map_eq_nil_iff.mp hms.bodies] at hp
    cases hp

theorem function_fresh (name : String) (location : Option Location) (sig : Signature) :
    Ensures t (function name location sig) fun h _ => t.graph.get? h = none := by
  obtain ⟨returns, params, variadic⟩ := sig
  unfold function
  have hr := resolve_leads s ⟨some name, none, location, .nested⟩ returns
  refine .bind hr (.of_leads hr) ?_
  intro r t₁ s₁ e₁ _ _
  have ha := arguments_leads s₁ name location params
  refine .bind ha (.of_leads ha) ?_
  intro args t₂ s₂ e₂ _ _ h t' hrun
  cases hrun
  exact get?_next_before (e₁.trans e₂)

theorem function_enters (name : String) (sig : Signature) (location : Option Location)
    (hh : t.hoisted = []) (hk : (sig.bodies.filterMap Body.key?).Nodup) :
    Ensures t (item (.declaration ⟨some name, .function sig, location⟩)) fun _ t' =>
      (t' = t ∧ (Item.declaration ⟨some name, .function sig, location⟩).Passed t) ∨
        Item.Enters (.declaration ⟨some name, .function sig, location⟩) t t' := by
  unfold item declare
  apply Ensures.get
  cases hc : t.functions.contains name with
  | true => exact .pure (.inl ⟨rfl, hc⟩)
  | false =>
    simp only [Bool.false_eq_true, if_false]
    refine .bind (walks_lead.2.1 name location sig t s)
      ((walks_write.2.1 name location sig t s hk).and (function_fresh s name location sig)) ?_
    rintro h t₁ s₁ _ ⟨⟨hw, hd⟩, f, hn, rfl⟩ ⟨⟨ms, hms, hhoused⟩, hfresh⟩ _ t' hrun
    cases hrun
    have hnone : t₁.functions.find? f.name = none := by
      rw [hw.functions]
      exact Option.not_isSome_iff_eq_none.mp (Bool.eq_false_iff.mp hc)
    have hms' := hms.then_step (.enterFunction (h := h) hnone) (step_named t₁ _) fun _ => .inl
    refine .inr (enters hms' (hms'.tables hw.typedefs) hh
      (fun n hget => by rw [hfresh] at hget; cases hget)
      ⟨f.name, rfl, .inl ⟨f, hn, rfl, hw.typedefs ▸ hd⟩⟩ ?_ (fun _ h => h.elim) hw.module
        hw.typedefs
      (congrArg (Table.insert · f.name h) hw.functions))
    exact fun p hp => (hhoused p hp).placed (fun _ _ => rfl) hp (fun _ => id) fun h => h.elim

theorem variable_enters (name : String) {type : TypeExpr} (location : Option Location)
    (hty : ∀ sig, type ≠ .function sig) (hh : t.hoisted = [])
    (hk : ((type.bodies .nested).filterMap Body.key?).Nodup) :
    Ensures t (item (.declaration ⟨some name, type, location⟩)) fun _ t' =>
      Item.Enters (.declaration ⟨some name, type, location⟩) t t' := by
  have hitem : item (.declaration ⟨some name, type, location⟩) = _ :=
    declare_variable name location hty
  have hname : Item.functionName? (.declaration ⟨some name, type, location⟩) = none := by
    cases type with
    | function sig => exact absurd rfl (hty sig)
    | _ => rfl
  rw [hitem]
  refine .bind (resolve_leads s _ type)
    (walks_write.1 _ type t .nested s ⟨fun _ => rfl, fun _ => rfl⟩
    (fun h => nomatch h) hk) ?_
  rintro h t₁ s₁ e₁ ⟨hw, hd⟩ ⟨ms, hms, _, _, hhoused⟩
  have hadd := add_leads s₁ (n := .object ⟨name, h, location⟩)
    (by simpa [Node.children] using hd.lt)
  refine .bind hadd (add_ensures rfl) ?_
  rintro v t₂ s₂ e₂ ⟨hv, hw₂⟩ ⟨hstep, hsame, rfl⟩ _ t' hrun
  rw [place_run] at hrun
  cases hrun
  have hhoused := (hhoused (by simp)).keep (hms.kept_step hstep) (hsame ▸ fun _ => id)
  have hd₂ := hd.grow e₂.graph
  have hms' := hms.then_step e₂ hstep (hsame ▸ fun _ => .inl)
  refine enters hms' (hms'.tables (hw.trans hw₂).typedefs) hh
    (fun n hn => by rw [get?_next_before e₁] at hn; cases hn)
    ⟨name, rfl, .inr ⟨_, hv, rfl, (hw.trans hw₂).typedefs ▸ hd₂⟩⟩ ?_ (fun _ h => h.elim)
    (hw.trans hw₂).module (hw.trans hw₂).typedefs
    (by rw [hname]; exact (hw.trans hw₂).functions)
  exact fun p hp => (hhoused p hp).placed (fun _ _ => rfl) hp (fun _ => id) fun h => h.elim

theorem typedef_target (d : TypedefDecl) (hf : t.typedefs.find? d.name = none) :
    Ensures t (typedef d) fun h t' => h = t.graph.next ∧ ∃ target t₁ e,
      (resolve ⟨some d.name, none, d.location, .typedefTarget⟩ d.type).run (t.withTypedef d) =
        (.ok target, t₁) ∧
      t₁.graph.get? h = some (.typedef e) ∧ e.name = d.name ∧ e.target = none ∧
      t' = { t₁ with graph := t₁.graph.set h (.typedef { e with target := some target }) } := by
  have s₁ := s.withTypedef d
  have hl := resolve_leads s₁ ⟨some d.name, none, d.location, .typedefTarget⟩ d.type
  refine .of_run (typedef_new d hf) ?_
  refine .bind (Q := fun target t₁ => (resolve _ d.type).run _ = (.ok target, t₁)) hl
    (fun _ _ => id) ?_
  intro target t₁ s₂ e hq hr
  refine .bind (assignTarget_leads s₂ hq.2.lt) tryGraph_ensures ?_
  intro _ t₂ _ _ _ hg
  obtain ⟨g, hg, rfl⟩ := hg
  obtain ⟨d₁, hd₁, hnone, rfl⟩ := Graph.assignTarget_ok hg
  obtain ⟨d₂, hd₂, hname⟩ := e.graph.typedef (Graph.get?_add_next t.graph _)
  rw [hd₁] at hd₂
  cases hd₂
  exact .pure ⟨rfl, target, t₁, d₁, hr, hd₁, hname, hnone, rfl⟩

/-- What is known once a typedef was read and is not yet placed. -/
theorem typedef_writes (d : TypedefDecl) (hf : t.typedefs.find? d.name = none)
    (hk : ((d.type.bodies .target).filterMap Body.key?).Nodup) :
    Writes t (typedef d) (d.type.bodies .target) fun x t' ms =>
      t.graph.get? x = none ∧ (∀ p ∈ ms, BodyAt t'.typedefs t'.graph p.2 p.1) ∧
        DeclaresAt t'.typedefs t'.graph x (.typedef d) ∧
        (∀ p ∈ ms, PlacedAt t'.graph ms t'.hoisted x p) ∧
        (∀ y, (Item.typedef d).Aggregate t'.graph x y → t.Keyed t' d.type.key? y) ∧
        t'.graph.module = t.graph.module ∧ t'.typedefs = t.typedefs.insert d.name x ∧
        t'.functions = t.functions := by
  refine (typedef_target s d hf).weaken ?_
  rintro x t' ⟨rfl, target, t₁, e, hrun, hn, hname, hnone, rfl⟩
  have s₀ := s.withTypedef d
  obtain ⟨s₁, e₁, hw, hd⟩ := (resolve_leads s₀ _ d.type).ok hrun
  obtain ⟨ms, hms, hkeyed, hdef, hhoused⟩ := walks_write.1 _ d.type _ .target s₀
    ⟨(by rintro ⟨⟩), by rintro ⟨⟩⟩ (by rintro ⟨⟩) hk target t₁ hrun
  have htables := hms.tables hw.typedefs
  have hms := hms.after_step s₀ e₁ (step_withTypedef d) (.withTypedef d hf) rfl hk
  -- the target is set in a node that holds no body, so the bodies stay
  have hset := Graph.get?_set_self hn (.typedef { e with target := some target })
  have hbecomes : Node.Becomes (.typedef e) (.typedef { e with target := some target }) :=
    .typedef rfl hnone
  have hgrow := Graph.grows_set hn hbecomes
  have hstep : t₁.Step { t₁ with
      graph := t₁.graph.set t.graph.next (.typedef { e with target := some target }) } [] :=
    step_set hn rfl rfl
  have hsame := hms.kept_step hstep
  refine ⟨ms, hms.then_step (.withGraph hgrow) hstep fun _ => .inl, Graph.get?_next _,
    fun p hp => (htables p hp).grow hgrow fun _ hn => (hsame p hp).trans hn,
    ⟨_, target, hset, hname, rfl, hw.typedefs ▸ hd.grow hgrow⟩, fun p hp => ?_, ?_, hw.module,
    hw.typedefs, hw.functions⟩
  case refine_2 =>
    rintro y ⟨ha, n', hn', htarget⟩
    rw [hset] at hn'
    cases hn'
    cases htarget
    exact ((hkeyed ha).after (step_withTypedef d)).keep hstep hd.lt
  by_cases hdefines : d.type.isDefinition = true
  · refine (hdef ⟨hdefines, by decide⟩).placed hsame (by decide) (fun b hb => ?_) p hp
    unfold PlacedAt
    rw [hb]
    exact ⟨_, hset, rfl⟩
  · exact (hhoused (fun hc => hdefines hc.1) p hp).placed hsame hp (fun _ => id) fun h => h.elim

theorem typedef_enters (d : TypedefDecl) (hf : t.typedefs.find? d.name = none)
    (hh : t.hoisted = []) (hk : ((d.type.bodies .target).filterMap Body.key?).Nodup) :
    Ensures t (item (.typedef d)) fun _ t' => Item.Enters (.typedef d) t t' := by
  unfold item
  refine .bind (typedef_leads s d) (typedef_writes s d hf hk) ?_
  rintro h t₁ _ _ _ ⟨ms, hms, hfresh, htables, hd, hp, hkeyed, hm, htd, hfn⟩ _ t' hrun
  rw [place_run] at hrun
  cases hrun
  exact enters hms htables hh (fun n hn => by rw [hfresh] at hn; cases hn) hd hp hkeyed hm htd hfn

theorem item_enters (i : Item) (hh : t.hoisted = [])
    (hitems : ∀ name h, t.typedefs.find? name = some h → h ∈ t.graph.module.items)
    (hk : (i.bodies.filterMap Body.key?).Nodup) :
    Ensures t (item i) fun _ t' => (t' = t ∧ i.Passed t) ∨ i.Enters t t' := by
  cases i with
  | typedef d =>
    cases hf : t.typedefs.find? d.name with
    | some h =>
      intro _ t' hrun
      rw [typedef_passes d hf hh (hitems _ _ hf)] at hrun
      cases hrun
      exact .inl ⟨rfl, by rw [Item.Passed, hf]; rfl⟩
    | none => exact (typedef_enters s d hf hh hk).weaken fun _ _ => .inr
  | container kind spec => exact (container_enters s kind spec hh hk).weaken fun _ _ => .inr
  | enumeration spec => exact (enumeration_enters s spec hh).weaken fun _ _ => .inr
  | declaration d =>
    obtain ⟨_ | name, type, location⟩ := d
    · exact .pure (.inl ⟨rfl, trivial⟩)
    · by_cases hty : ∃ sig, type = .function sig
      · obtain ⟨sig, rfl⟩ := hty
        exact function_enters s name sig location hh hk
      · exact (variable_enters s name location (fun sig he => hty ⟨sig, he⟩) hh hk).weaken
          fun _ _ => .inr
  | ignored what => exact .pure (.inl ⟨rfl, trivial⟩)

end

end Walk

end CythonDecls
