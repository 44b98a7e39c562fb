import CythonDecls.Proofs.Graph.Inline
import CythonDecls.Proofs.Translation.Walks
import CythonDecls.Proofs.Tree.Uses
import Mathlib.Data.List.Forall2

/-!
# What a walk writes

A walk writes every body it reads to one node and leaves the bodies of all
other nodes alone. `Writing` pairs the bodies with their nodes, in the order in
which the bodies end. A node is written when it is new or when its tag was
only mentioned before, so where no tag is defined twice no node is written
twice, and what was written stays.
-/

namespace CythonDecls

structure FieldIs (typedefs : Table String Handle) (g : Graph) (written : String × TypeExpr)
    (f : Field) : Prop where
  name : f.name = written.1
  inline : f.inline = written.2.isDefinition
  type : Denotes typedefs g written.2 f.type

def BodyAt (typedefs : Table String Handle) (g : Graph) (h : Handle) : Body → Prop
  | .container _ kind tag ms => ∃ c, g.get? h = some (.container kind c) ∧
    (tag.isSome → c.tag = tag) ∧ List.Forall₂ (FieldIs typedefs g) (resultingFields ms) c.fields
  | .enumeration _ tag es => ∃ e, g.get? h = some (.enumeration e) ∧
    (tag.isSome → e.tag = tag) ∧ e.values.map (·.name) = es.map (·.name)

section
variable {typedefs : Table String Handle} {g g' : Graph} {h : Handle} {b : Body}

theorem BodyAt.aggregate (hb : BodyAt typedefs g h b) :
    ∃ n, g.get? h = some n ∧ n.isAggregate = true := by
  cases b with
  | container place kind tag ms =>
    obtain ⟨c, hn, _⟩ := hb
    exact ⟨_, hn, rfl⟩
  | enumeration place tag es =>
    obtain ⟨e, hn, _⟩ := hb
    exact ⟨_, hn, rfl⟩

theorem BodyAt.key? (hb : BodyAt typedefs g h b) (htag : b.tag ≠ none) :
    ∃ n, g.get? h = some n ∧ n.key? = b.key? := by
  cases b with
  | container place kind tag ms =>
    obtain ⟨c, hn, ht, _⟩ := hb
    refine ⟨_, hn, ?_⟩
    simp only [Node.key?, ht (Option.isSome_iff_ne_none.mpr htag)]
    rfl
  | enumeration place tag es =>
    obtain ⟨e, hn, ht, _⟩ := hb
    refine ⟨_, hn, ?_⟩
    simp only [Node.key?, ht (Option.isSome_iff_ne_none.mpr htag)]
    rfl

theorem BodyAt.grow (hb : BodyAt typedefs g h b) (hg : g.Grows g')
    (hn : ∀ n, g.get? h = some n → g'.get? h = some n) : BodyAt typedefs g' h b := by
  cases b with
  | container place kind tag ms =>
    obtain ⟨c, hc, ht, hf⟩ := hb
    refine ⟨c, hn _ hc, ht, hf.imp ?_⟩
    rintro ⟨name, ty⟩ f ⟨hname, hinline, htype⟩
    exact ⟨hname, hinline, htype.grow hg⟩
  | enumeration place tag es =>
    obtain ⟨e, he, ht, hv⟩ := hb
    exact ⟨e, hn _ he, ht, hv⟩

theorem BodyAt.congr {typedefs' : Table String Handle} (hb : BodyAt typedefs g h b)
    (ht : ∀ name, typedefs'.find? name = typedefs.find? name) : BodyAt typedefs' g h b := by
  cases b with
  | container place kind tag ms =>
    obtain ⟨c, hc, htag, hf⟩ := hb
    exact ⟨c, hc, htag, hf.imp fun _ _ hf => ⟨hf.name, hf.inline, hf.type.congr ht⟩⟩
  | enumeration place tag es => exact hb

end

namespace Translator

/-- From `t` to `t'`, bodies are written in the nodes of `hs` alone, and new
tags have new nodes. -/
structure Step (t t' : Translator) (hs : List Handle) : Prop where
  kept : ∀ h n, t.graph.get? h = some n → n.isAggregate = true → h ∉ hs → t'.graph.get? h = some n
  bodies : ∀ h n, t'.graph.get? h = some n → n.hasBody = true → h ∉ hs → t.graph.get? h = some n
  size : t.graph.size ≤ t'.graph.size
  tags : ∀ key h, t'.lookup key = some h → t.lookup key = some h ∨ t.graph.size ≤ h.index

theorem Step.refl (t : Translator) : Step t t [] where
  kept _ _ hn _ _ := hn
  bodies _ _ hn _ _ := hn
  size := Nat.le_refl _
  tags _ _ hk := .inl hk

theorem Step.trans {t₁ t₂ t₃ : Translator} {hs ks : List Handle} (h₁ : Step t₁ t₂ hs)
    (h₂ : Step t₂ t₃ ks) : Step t₁ t₃ (hs ++ ks) where
  kept h n hn ha hh := by
    rw [List.mem_append, not_or] at hh
    exact h₂.kept h n (h₁.kept h n hn ha hh.1) ha hh.2
  bodies h n hn hb hh := by
    rw [List.mem_append, not_or] at hh
    exact h₁.bodies h n (h₂.bodies h n hn hb hh.2) hb hh.1
  size := Nat.le_trans h₁.size h₂.size
  tags key h hk := by
    rcases h₂.tags key h hk with hk | hk
    · exact h₁.tags key h hk
    · exact .inr (Nat.le_trans h₁.size hk)

theorem step_write (t : Translator) (h : Handle) (n : Node) :
    t.Step { t with graph := t.graph.set h n } [h] where
  kept k m hm _ hk := by
    rw [List.mem_singleton] at hk
    exact (Graph.get?_set_ne t.graph hk n).trans hm
  bodies k m hm _ hk := by
    rw [List.mem_singleton] at hk
    exact (Graph.get?_set_ne t.graph hk n).symm.trans hm
  size := Nat.le_of_eq (Graph.size_set ..).symm
  tags key k hk := .inl (by rwa [lookup_withGraph] at hk)

/-- The node of an aggregate is new, unless its tag had one. -/
structure Keyed (t t' : Translator) (key? : Option (Option ContainerKind × String)) (h : Handle) :
    Prop where
  origin : t.graph.size ≤ h.index ∨ ∃ key, key? = some key ∧ t.lookup key = some h
  untagged : key? = none → ∀ key, t'.lookup key ≠ some h

section
variable {t₁ t₂ t₃ : Translator} {hs : List Handle} {h : Handle}
  {key? : Option (Option ContainerKind × String)}

theorem Keyed.after (hk : Keyed t₂ t₃ key? h) (hstep : Step t₁ t₂ hs) : Keyed t₁ t₃ key? h where
  origin := by
    rcases hk.origin with hlt | ⟨key, hkey, hlook⟩
    · exact .inl (Nat.le_trans hstep.size hlt)
    · rcases hstep.tags key h hlook with hlook | hlt
      · exact .inr ⟨key, hkey, hlook⟩
      · exact .inl hlt
  untagged := hk.untagged

theorem Keyed.keep (hk : Keyed t₁ t₂ key? h) (hstep : Step t₂ t₃ hs)
    (hlt : h.index < t₂.graph.size) : Keyed t₁ t₃ key? h where
  origin := hk.origin
  untagged hnone key hlook := by
    rcases hstep.tags key h hlook with hlook | hle
    · exact hk.untagged hnone key hlook
    · exact absurd hlt (Nat.not_lt.mpr hle)

end

end Translator

/-- Fields that are bodies themselves have the nodes of those bodies. -/
def Hosted (ms : List (Body × Handle)) (written : String × TypeExpr) (f : Field) : Prop :=
  ∀ b, written.2.body? = some b → (b, f.type) ∈ ms

/-- The body `p` hosts the bodies that its fields are. -/
def Hosts (g : Graph) (ms : List (Body × Handle)) (p : Body × Handle) : Prop :=
  match p.1 with
  | .container _ _ _ members => ∃ kind c, g.get? p.2 = some (.container kind c) ∧
    List.Forall₂ (Hosted ms) (resultingFields members) c.fields
  | .enumeration .. => True

theorem exists_of_hosted {typedefs : Table String Handle} {g : Graph} {ms : List (Body × Handle)}
    {written : List (String × TypeExpr)} {fs : List Field}
    (hw : List.Forall₂ (FieldIs typedefs g) written fs)
    (hh : List.Forall₂ (Hosted ms) written fs) {f : Field} (hf : f ∈ fs) (hi : f.inline = true) :
    ∃ w ∈ written, ∃ b, w.2.body? = some b ∧ (b, f.type) ∈ ms := by
  induction hw with
  | nil => cases hf
  | @cons w f' written fs hfield _ ih =>
    cases hh with
    | cons hhost hh =>
      rcases List.mem_cons.mp hf with rfl | hf
      · obtain ⟨b, hb⟩ := TypeExpr.isDefinition_iff.mp (hfield.inline.symm.trans hi)
        exact ⟨w, List.mem_cons_self, b, hb, hhost b hb⟩
      · obtain ⟨w, hw, hb⟩ := ih hh hf
        exact ⟨w, List.mem_cons_of_mem _ hw, hb⟩

section
variable {g g' : Graph} {ms ns : List (Body × Handle)} {p : Body × Handle}

theorem Hosted.mono {written : String × TypeExpr} {f : Field} (h : Hosted ms written f)
    (hm : ∀ q ∈ ms, q ∈ ns) : Hosted ns written f := fun b hb => hm _ (h b hb)

theorem Hosts.mono (h : Hosts g ms p) (hg : g'.get? p.2 = g.get? p.2) (hm : ∀ q ∈ ms, q ∈ ns) :
    Hosts g' ns p := by
  obtain ⟨b, k⟩ := p
  cases b with
  | container place kind tag members =>
    obtain ⟨kind', c, hc, hf⟩ := h
    exact ⟨kind', c, hg.trans hc, hf.imp fun _ _ hf => hf.mono hm⟩
  | enumeration place tag es => trivial

end

/-- From `t` to `t'`, each of `bs` was written to its node in `ms`, and nothing
but their nested ones was hoisted. -/
structure Writing (t t' : Translator) (bs : List Body) (ms : List (Body × Handle)) : Prop where
  bodies : ms.map Prod.fst = bs
  step : t.Step t' (ms.map Prod.snd)
  known : ∀ name h, t.typedefs.find? name = some h → t'.typedefs.find? name = some h
  nodes : ∀ p ∈ ms, ∃ typedefs : Table String Handle,
    (∀ name h, t.typedefs.find? name = some h → typedefs.find? name = some h) ∧
      (∀ name h, typedefs.find? name = some h → t'.typedefs.find? name = some h) ∧
      BodyAt typedefs t'.graph p.2 p.1
  origin : ∀ p ∈ ms, t.graph.size ≤ p.2.index ∨ ∃ key, p.1.key? = some key ∧ t.lookup key = some p.2
  untagged : ∀ p ∈ ms, p.1.tag = none → ∀ key, t'.lookup key ≠ some p.2
  once : (ms.map Prod.snd).Nodup
  nested : t'.graph.Nested [] (ms.map Prod.snd)
  hosts : ∀ p ∈ ms, Hosts t'.graph ms p
  hoisted : ∀ h ∈ t'.hoisted, h ∈ t.hoisted ∨ ∃ b, b.place = .nested ∧ (b, h) ∈ ms

namespace Writing

open Translator

theorem nil {t t' : Translator} (h : t.Step t' []) (e : t.Extends t')
    (hh : t'.hoisted = t.hoisted) : Writing t t' [] [] where
  bodies := rfl
  step := h
  known := e.typedefs
  nodes _ hp := nomatch hp
  origin _ hp := nomatch hp
  untagged _ hp := nomatch hp
  once := .nil
  nested := trivial
  hosts _ hp := nomatch hp
  hoisted _ hk := .inl (hh ▸ hk)

section
variable {t₁ t₂ t₃ : Translator} {bs cs : List Body} {ms ns : List (Body × Handle)}

theorem aggregate (h : Writing t₁ t₂ bs ms) {p : Body × Handle} (hp : p ∈ ms) :
    ∃ n, t₂.graph.get? p.2 = some n ∧ n.isAggregate = true := by
  obtain ⟨_, _, _, hb⟩ := h.nodes p hp
  exact hb.aggregate

theorem lt (h : Writing t₁ t₂ bs ms) {p : Body × Handle} (hp : p ∈ ms) :
    p.2.index < t₂.graph.size := by
  obtain ⟨n, hn, _⟩ := h.aggregate hp
  exact Graph.lt_of_get? hn

theorem tables (h : Writing t₁ t₂ bs ms) (ht : t₂.typedefs = t₁.typedefs) :
    ∀ p ∈ ms, BodyAt t₂.typedefs t₂.graph p.2 p.1 := by
  intro p hp
  obtain ⟨td, hfrom, hto, hb⟩ := h.nodes p hp
  refine hb.congr fun name => ?_
  cases hfind : t₂.typedefs.find? name with
  | some k => exact (hfrom name k (ht ▸ hfind)).symm
  | none =>
    cases htd : td.find? name with
    | some k => exact (hfind.symm.trans (hto name k htd))
    | none => rfl

theorem origin_mem (h : Writing t₁ t₂ bs ms) : ∀ k ∈ ms.map Prod.snd,
    t₁.graph.size ≤ k.index ∨ ∃ b ∈ bs, ∃ key, b.key? = some key ∧ t₁.lookup key = some k := by
  intro k hk
  obtain ⟨p, hp, rfl⟩ := List.mem_map.mp hk
  exact (h.origin p hp).imp_right fun hkey => ⟨p.1, h.bodies ▸ List.mem_map_of_mem hp, hkey⟩

/-- A node that a tag has is not the node of a body, unless the body has that tag. -/
theorem key_of_lookup (s : t₂.Sound) (h : Writing t₁ t₂ bs ms) {p : Body × Handle} (hp : p ∈ ms)
    {key : Option ContainerKind × String} (hk : t₂.lookup key = some p.2) :
    p.1.key? = some key := by
  have htag : p.1.tag ≠ none := fun htag => h.untagged p hp htag key hk
  obtain ⟨n, hn, hkey⟩ := s.lookup hk
  obtain ⟨_, _, _, hb⟩ := h.nodes p hp
  obtain ⟨m, hm, hbody⟩ := hb.key? htag
  rw [hn] at hm
  cases hm
  rw [← hbody, hkey]

theorem disjoint (s : t₂.Sound) (h : Writing t₁ t₂ bs ms) (h' : Writing t₂ t₃ cs ns)
    (hk : ((bs ++ cs).filterMap Body.key?).Nodup) : ∀ p ∈ ms, ∀ q ∈ ns, p.2 ≠ q.2 := by
  intro p hp q hq he
  rcases h'.origin q hq with hlt | ⟨key, hkey, hlook⟩
  · have := h.lt hp
    rw [he] at this
    omega
  · rw [← he] at hlook
    have hpkey := h.key_of_lookup s hp hlook
    have hpb : p.1 ∈ bs := h.bodies ▸ List.mem_map_of_mem hp
    have hqb : q.1 ∈ cs := h'.bodies ▸ List.mem_map_of_mem hq
    rw [List.filterMap_append, List.nodup_append] at hk
    exact hk.2.2 key (List.mem_filterMap.mpr ⟨_, hpb, hpkey⟩) key
      (List.mem_filterMap.mpr ⟨_, hqb, hkey⟩) rfl

theorem kept (s : t₂.Sound) (h : Writing t₁ t₂ bs ms) (h' : Writing t₂ t₃ cs ns)
    (hk : ((bs ++ cs).filterMap Body.key?).Nodup) :
    ∀ p ∈ ms, t₃.graph.get? p.2 = t₂.graph.get? p.2 := by
  intro p hp
  obtain ⟨n, hn, ha⟩ := h.aggregate hp
  rw [hn]
  refine h'.step.kept p.2 n hn ha fun hm => ?_
  obtain ⟨q, hq, he⟩ := List.mem_map.mp hm
  exact h.disjoint s h' hk p hp q hq he.symm

theorem append (s : t₂.Sound) (e : t₂.Extends t₃) (h : Writing t₁ t₂ bs ms)
    (h' : Writing t₂ t₃ cs ns) (hk : ((bs ++ cs).filterMap Body.key?).Nodup) :
    Writing t₁ t₃ (bs ++ cs) (ms ++ ns) := by
  have hne := h.disjoint s h' hk
  have hkept := h.kept s h' hk
  constructor
  case bodies => rw [List.map_append, h.bodies, h'.bodies]
  case step =>
    rw [List.map_append]
    exact h.step.trans h'.step
  case known => exact fun name k hk => h'.known name k (h.known name k hk)
  case nodes =>
    intro p hp
    rcases List.mem_append.mp hp with hp | hp
    · obtain ⟨td, hfrom, hto, hb⟩ := h.nodes p hp
      exact ⟨td, hfrom, fun name k hk => e.typedefs name k (hto name k hk),
        hb.grow e.graph fun n hn => (hkept p hp).trans hn⟩
    · obtain ⟨td, hfrom, hto, hb⟩ := h'.nodes p hp
      exact ⟨td, fun name k hk => hfrom name k (h.known name k hk), hto, hb⟩
  case origin =>
    intro p hp
    rcases List.mem_append.mp hp with hp | hp
    · exact h.origin p hp
    · rcases h'.origin p hp with hlt | ⟨key, hkey, hlook⟩
      · exact .inl (Nat.le_trans h.step.size hlt)
      -- a tag known to the second part may have got its node in the first
      · rcases h.step.tags key _ hlook with hlook | hlt
        · exact .inr ⟨key, hkey, hlook⟩
        · exact .inl hlt
  case untagged =>
    intro p hp htag key hlook
    rcases List.mem_append.mp hp with hp | hp
    · rcases h'.step.tags key _ hlook with hlook | hlt
      · exact h.untagged p hp htag key hlook
      · exact absurd (h.lt hp) (Nat.not_lt.mpr hlt)
    · exact h'.untagged p hp htag key hlook
  case once =>
    rw [List.map_append, List.nodup_append]
    refine ⟨h.once, h'.once, ?_⟩
    intro k hk l hl he
    obtain ⟨p, hp, rfl⟩ := List.mem_map.mp hk
    obtain ⟨q, hq, rfl⟩ := List.mem_map.mp hl
    exact hne p hp q hq he
  case nested =>
    rw [List.map_append, Graph.nested_append]
    refine ⟨h.nested.mono (fun _ hh => hh) ?_,
      h'.nested.mono (fun _ hh => nomatch hh) fun _ _ _ => id⟩
    intro k hk l ⟨kind, c, hc, hf⟩
    obtain ⟨p, hp, rfl⟩ := List.mem_map.mp hk
    exact ⟨kind, c, (hkept p hp).symm.trans hc, hf⟩
  case hosts =>
    intro p hp
    rcases List.mem_append.mp hp with hp | hp
    · exact (h.hosts p hp).mono (hkept p hp) fun _ => List.mem_append_left _
    · exact (h'.hosts p hp).mono rfl fun _ => List.mem_append_right _
  case hoisted =>
    intro k hk
    rcases h'.hoisted k hk with hk | ⟨b, hb, hm⟩
    · exact (h.hoisted k hk).imp_right fun ⟨b, hb, hm⟩ => ⟨b, hb, List.mem_append_left _ hm⟩
    · exact .inr ⟨b, hb, List.mem_append_right _ hm⟩

theorem after_step (h : Writing t₂ t₃ bs ms) (s : t₂.Sound) (e : t₂.Extends t₃)
    (hs : t₁.Step t₂ []) (e' : t₁.Extends t₂) (hh : t₂.hoisted = t₁.hoisted)
    (hk : (bs.filterMap Body.key?).Nodup) : Writing t₁ t₃ bs ms :=
  (nil hs e' hh).append s e h hk

theorem kept_step (h : Writing t₁ t₂ bs ms) (hs : t₂.Step t₃ []) :
    ∀ p ∈ ms, t₃.graph.get? p.2 = t₂.graph.get? p.2 := by
  intro p hp
  obtain ⟨n, hn, ha⟩ := h.aggregate hp
  rw [hn, hs.kept p.2 n hn ha fun hm => nomatch hm]

theorem then_step (h : Writing t₁ t₂ bs ms) (e : t₂.Extends t₃) (hs : t₂.Step t₃ [])
    (hh : ∀ k ∈ t₃.hoisted, k ∈ t₂.hoisted ∨ ∃ b, b.place = .nested ∧ (b, k) ∈ ms) :
    Writing t₁ t₃ bs ms where
  bodies := h.bodies
  step := by simpa using h.step.trans hs
  known name k hk := e.typedefs name k (h.known name k hk)
  nodes p hp := by
    obtain ⟨td, hfrom, hto, hb⟩ := h.nodes p hp
    exact ⟨td, hfrom, fun name k hk => e.typedefs name k (hto name k hk),
      hb.grow e.graph fun n hn => (h.kept_step hs p hp).trans hn⟩
  origin := h.origin
  untagged p hp htag key hlook := by
    rcases hs.tags key _ hlook with hlook | hlt
    · exact h.untagged p hp htag key hlook
    · exact absurd (h.lt hp) (Nat.not_lt.mpr hlt)
  once := h.once
  nested := by
    refine h.nested.mono (fun _ hh => hh) ?_
    intro k hk l ⟨kind, c, hc, hf⟩
    obtain ⟨p, hp, rfl⟩ := List.mem_map.mp hk
    exact ⟨kind, c, (h.kept_step hs p hp).symm.trans hc, hf⟩
  hosts p hp := (h.hosts p hp).mono (h.kept_step hs p hp) fun _ => id
  hoisted k hk := by
    rcases hh k hk with hk | hk
    · exact h.hoisted k hk
    · exact .inr hk

theorem write (h : Writing t₁ t₂ bs ms) {k : Handle} {m n : Node} {b : Body}
    (hm : t₂.graph.get? k = some m) (hbecomes : m.Becomes n) (hnew : k ∉ ms.map Prod.snd)
    (hbody : BodyAt t₂.typedefs (t₂.graph.set k n) k b)
    (horigin : t₁.graph.size ≤ k.index ∨ ∃ key, b.key? = some key ∧ t₁.lookup key = some k)
    (huntagged : b.tag = none → ∀ key, t₂.lookup key ≠ some k)
    (hinline : ∀ l, (t₂.graph.set k n).Inline k l → l ∈ ms.map Prod.snd)
    (hhosts : Hosts (t₂.graph.set k n) ms (b, k)) :
    Writing t₁ { t₂ with graph := t₂.graph.set k n } (bs ++ [b]) (ms ++ [(b, k)]) := by
  have hgrow : t₂.graph.Grows (t₂.graph.set k n) := Graph.grows_set hm hbecomes
  have hkept {l} (hl : l ≠ k) : (t₂.graph.set k n).get? l = t₂.graph.get? l :=
    Graph.get?_set_ne _ hl n
  have hne {p} (hp : p ∈ ms) : p.2 ≠ k := fun he => hnew (he ▸ List.mem_map_of_mem hp)
  constructor
  case bodies => rw [List.map_append, h.bodies]; rfl
  case step =>
    rw [List.map_append]
    exact h.step.trans (step_write t₂ k n)
  case known => exact h.known
  case nodes =>
    intro p hp
    rcases List.mem_append.mp hp with hp | hp
    · obtain ⟨td, hfrom, hto, hb⟩ := h.nodes p hp
      exact ⟨td, hfrom, hto, hb.grow hgrow fun m' hm' => (hkept (hne hp)).trans hm'⟩
    · rw [List.mem_singleton.mp hp]
      exact ⟨t₂.typedefs, h.known, fun _ _ => id, hbody⟩
  case origin =>
    intro p hp
    rcases List.mem_append.mp hp with hp | hp
    · exact h.origin p hp
    · rw [List.mem_singleton.mp hp]
      exact horigin
  case untagged =>
    intro p hp htag key
    rw [lookup_withGraph]
    rcases List.mem_append.mp hp with hp | hp
    · exact h.untagged p hp htag key
    · rw [List.mem_singleton.mp hp] at htag ⊢
      exact huntagged htag key
  case once =>
    rw [List.map_append, List.nodup_append]
    refine ⟨h.once, List.pairwise_singleton .., ?_⟩
    intro l hl l' hl' he
    rw [he, List.mem_singleton.mp hl'] at hl
    exact hnew hl
  case nested =>
    rw [List.map_append, Graph.nested_append]
    refine ⟨h.nested.mono (fun _ hh => hh) ?_, hinline, trivial⟩
    -- the node of the new body is none of the earlier ones, so these hold what they held
    intro l hl l' ⟨kind, c, hc, hf⟩
    rw [hkept fun he => hnew (he ▸ hl)] at hc
    exact ⟨kind, c, hc, hf⟩
  case hosts =>
    intro p hp
    rcases List.mem_append.mp hp with hp | hp
    · exact (h.hosts p hp).mono (hkept (hne hp)) fun _ => List.mem_append_left _
    · rw [List.mem_singleton.mp hp]
      exact hhosts.mono rfl fun _ => List.mem_append_left _
  case hoisted =>
    intro l hl
    exact (h.hoisted l hl).imp_right fun ⟨b, hb, hm⟩ => ⟨b, hb, List.mem_append_left _ hm⟩

end

end Writing

end CythonDecls
