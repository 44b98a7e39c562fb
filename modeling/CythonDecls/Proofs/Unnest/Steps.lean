import CythonDecls.Proofs.Unnest.Frame
import Mathlib.Logic.Relation

/-!
# Unnesting step by step

Unnesting a container names aggregates and extracts them, one at a time. What
is extracted was named and emptied of inline fields before, since the fields of
a type are unnested ahead of the type. As inline fields lead down in rank, no
step inside of a type changes the container around it.
-/

namespace CythonDecls

theorem exists_of_bind {ε α β : Type} {x : Except ε α} {f : α → Except ε β} {b : β}
    (h : x >>= f = .ok b) : ∃ a, x = .ok a ∧ f a = .ok b := by
  cases x with
  | ok a => exact ⟨a, rfl, h⟩
  | error _ => cases h

theorem foldlM_keeps {ε α β : Type} {f : β → α → Except ε β} {P : β → Prop} (as : List α)
    (hf : ∀ a ∈ as, ∀ b c, P b → f b a = .ok c → P c) :
    ∀ {b c : β}, P b → as.foldlM f b = .ok c → P c := by
  induction as with
  | nil =>
    intro b c hb h
    cases h
    exact hb
  | cons a as ih =>
    intro b c hb h
    rw [List.foldlM_cons] at h
    obtain ⟨d, hd, h⟩ := exists_of_bind h
    have hrest := fun a' ha' => hf a' (List.mem_cons_of_mem _ ha')
    exact ih hrest (hf a List.mem_cons_self b d hb hd) h

theorem Graph.get_eq_ok {g : Graph} {h : Handle} {n : Node} :
    g.get h = .ok n ↔ g.get? h = some n := by
  unfold get
  cases g.get? h <;> simp

theorem Graph.container?_eq_some {g : Graph} {h : Handle} {c : Container} :
    g.container? h = some c ↔ ∃ kind, g.get? h = some (.container kind c) := by
  unfold container?
  constructor
  · intro hc
    obtain ⟨n, hn, hnc⟩ := Option.bind_eq_some_iff.mp hc
    cases n with
    | container kind c' =>
      cases hnc
      exact ⟨kind, hn⟩
    | _ => cases hnc
  · rintro ⟨kind, hn⟩
    rw [hn]
    rfl

theorem Node.tag?_withTag {n : Node} (hb : n.hasBody = true) (name : String) :
    (n.withTag name).tag? = some name := by
  cases n with
  | container kind body => rfl
  | enumeration e => rfl
  | _ => cases hb

theorem Graph.setTag_unnests {g : Graph} {c h : Handle} (hi : g.Inline c h) (hb : g.HasBody h)
    (outer inner : String) (ex : List Handle) :
    g.Unnests (g.setTag h (Unnesting.mangle outer inner)) ex := by
  obtain ⟨n, hn, hnb⟩ := hb
  generalize hname : Unnesting.mangle outer inner = name
  have hset : g.setTag h name = g.set h (n.withTag name) := by
    unfold setTag
    rw [hn]
  have hunnests : n.Unnests g (g.setTag h name) ex (n.withTag name) := by
    cases n with
    | container kind c =>
      exact .container rfl (fun _ => rfl) (List.forall₂_same.mpr fun f _ => .same f)
    | enumeration e => exact .enumeration rfl (fun _ => rfl) rfl
    | _ => exact .same
  constructor
  case size => exact Nat.le_of_eq (hset ▸ (size_set ..).symm)
  case nodes =>
    intro k m hm
    by_cases hk : k = h
    · subst hk
      rw [hn] at hm
      cases hm
      exact ⟨_, by rw [hset, get?_set_self hn], hunnests⟩
    · exact ⟨m, by rw [hset, get?_set_ne g hk, hm], .same⟩
  case fresh =>
    intro k m hm hk
    have hlt := lt_of_get? hm
    rw [hset, size_set] at hlt
    exact absurd hlt (Nat.not_lt.mpr hk)
  case names =>
    intro k d hd hk
    have hlt := lt_of_get? hd
    rw [hset, size_set] at hlt
    exact absurd hlt (Nat.not_lt.mpr hk)
  case tags =>
    intro k m m' hm hm'
    by_cases hk : k = h
    · subst hk
      rw [hset, get?_set_self hn] at hm'
      cases hm'
      exact .inr ⟨⟨c, hi⟩, outer, inner, by rw [hname, Node.tag?_withTag hnb]⟩
    · rw [hset, get?_set_ne g hk, hm] at hm'
      cases hm'
      exact .inl rfl

theorem forall₂_modify {α : Type} {R : α → α → Prop} {f : α → α} {a : α} (hrefl : ∀ a, R a a)
    (hf : R a (f a)) : ∀ (as : List α) (i : Nat), as[i]? = some a →
      List.Forall₂ R as (as.modify i f)
  | [], i, h => by cases h
  | b :: as, 0, h => by
    cases h
    exact .cons hf (List.forall₂_same.mpr fun b _ => hrefl b)
  | b :: as, i + 1, h => .cons (hrefl b) (forall₂_modify hrefl hf as i h)

theorem getElem?_of_forall₂ {α β : Type} {R : α → β → Prop} {as : List α} {bs : List β} {b : β}
    (h : List.Forall₂ R as bs) : ∀ {i : Nat}, bs[i]? = some b → ∃ a, as[i]? = some a ∧ R a b := by
  induction h with
  | nil => exact fun hi => nomatch hi
  | cons hab _ ih =>
    intro i hi
    cases i with
    | zero =>
      cases hi
      exact ⟨_, rfl, hab⟩
    | succ i => exact ih hi

namespace Unnesting

variable {u v w : Unnesting} {c h : Handle} {i : Nat} {f : Field}

theorem field?_eq_some : u.field? c i = some f ↔
    ∃ kind body, u.graph.get? c = some (.container kind body) ∧ body.fields[i]? = some f := by
  unfold field?
  constructor
  · intro hf
    obtain ⟨body, hbody, hi⟩ := Option.bind_eq_some_iff.mp hf
    obtain ⟨kind, hkind⟩ := Graph.container?_eq_some.mp hbody
    exact ⟨kind, body, hkind, hi⟩
  · rintro ⟨kind, body, hbody, hi⟩
    rw [Graph.container?_eq_some.mpr ⟨kind, hbody⟩]
    exact hi

theorem inline_of_field (hf : u.field? c i = some f) (hi : f.inline = true) :
    u.graph.Inline c f.type := by
  obtain ⟨kind, body, hbody, hfi⟩ := field?_eq_some.mp hf
  exact ⟨kind, body, hbody, f, List.mem_of_getElem? hfi, hi, rfl⟩

theorem extract_graph {kind : ContainerKind} {body : Container}
    (hbody : u.graph.get? c = some (.container kind body)) (inner : Handle) (name : String) :
    (u.extract c i inner name).graph =
      (u.graph.add (.typedef ⟨name ++ "_t", some inner, none⟩)).set c (.container kind
        { body with fields := body.fields.modify i fun f =>
          { f with type := u.graph.next, inline := false } }) := by
  have hgrown := Graph.get?_add_of_some hbody (.typedef ⟨name ++ "_t", some inner, none⟩)
  unfold extract Graph.modifyContainer
  simp only [hgrown]

theorem extract_size (hf : u.field? c i = some f) (inner : Handle) (name : String) :
    (u.extract c i inner name).graph.size = u.graph.size + 1 := by
  obtain ⟨kind, body, hbody, _⟩ := field?_eq_some.mp hf
  rw [extract_graph hbody, Graph.size_set, Graph.size_add]

theorem extract_new (hf : u.field? c i = some f) {inner : Handle} {name : String} {n : Node}
    (hn : (u.extract c i inner name).graph.get? h = some n) (hh : u.graph.size ≤ h.index) :
    h = u.graph.next := by
  have hlt := Graph.lt_of_get? hn
  rw [extract_size hf] at hlt
  cases h
  exact congrArg Handle.mk (Nat.le_antisymm (Nat.lt_succ_iff.mp hlt) hh)

theorem extract_next (hf : u.field? c i = some f) (inner : Handle) (name : String) :
    (u.extract c i inner name).graph.get? u.graph.next =
      some (.typedef ⟨name ++ "_t", some inner, none⟩) := by
  obtain ⟨kind, body, hbody, _⟩ := field?_eq_some.mp hf
  have hcn : c ≠ u.graph.next := fun he => by
    rw [he, Graph.get?_next] at hbody
    cases hbody
  rw [extract_graph hbody, Graph.get?_set_ne _ hcn.symm, Graph.get?_add_next]

theorem extract_get?_ne (hf : u.field? c i = some f) (inner : Handle) (name : String)
    (hc : h ≠ c) (hh : h.index < u.graph.size) :
    (u.extract c i inner name).graph.get? h = u.graph.get? h := by
  obtain ⟨kind, body, hbody, _⟩ := field?_eq_some.mp hf
  have hnext : h ≠ u.graph.next := fun he => Nat.lt_irrefl _ (he ▸ hh)
  rw [extract_graph hbody, Graph.get?_set_ne _ hc, Graph.get?_add, if_neg hnext]

theorem field?_extract (hf : u.field? c i = some f) (inner : Handle) (name : String) :
    (u.extract c i inner name).field? c i =
      some { f with type := u.graph.next, inline := false } := by
  obtain ⟨kind, body, hbody, hfi⟩ := field?_eq_some.mp hf
  have hself := Graph.get?_set_self (Graph.get?_add_of_some hbody
    (.typedef ⟨name ++ "_t", some inner, none⟩)) (.container kind
      { body with fields := body.fields.modify i fun f =>
        { f with type := u.graph.next, inline := false } })
  rw [← extract_graph hbody] at hself
  refine field?_eq_some.mpr ⟨kind, _, hself, ?_⟩
  simp [hfi]

theorem extract_tag (hf : u.field? c i = some f) {inner : Handle} {name : String} {n n' : Node}
    (hn : u.graph.get? h = some n) (hn' : (u.extract c i inner name).graph.get? h = some n') :
    n'.tag? = n.tag? := by
  by_cases hh : h = c
  · subst hh
    obtain ⟨kind, body, hbody, _⟩ := field?_eq_some.mp hf
    have hgrown := Graph.get?_add_of_some hbody (.typedef ⟨name ++ "_t", some inner, none⟩)
    rw [extract_graph hbody, Graph.get?_set_self hgrown] at hn'
    rw [hbody] at hn
    cases hn
    cases hn'
    rfl
  · rw [extract_get?_ne hf _ _ hh (Graph.lt_of_get? hn), hn] at hn'
    cases hn'
    rfl

theorem extract_unnests (hf : u.field? c i = some f) (hi : f.inline = true)
    (hb : u.graph.HasBody f.type) (outer inner : String) :
    u.graph.Unnests (u.extract c i f.type (mangle outer inner)).graph
      (u.extract c i f.type (mangle outer inner)).extracted := by
  obtain ⟨kind, body, hbody, hfi⟩ := field?_eq_some.mp hf
  generalize hname : mangle outer inner = name
  have hgraph := extract_graph (i := i) hbody f.type name
  have hnext := extract_next hf f.type name
  have hself := Graph.get?_set_self (Graph.get?_add_of_some hbody
    (.typedef ⟨name ++ "_t", some f.type, none⟩)) (.container kind
      { body with fields := body.fields.modify i fun f =>
        { f with type := u.graph.next, inline := false } })
  have hin : f.type ∈ (u.extract c i f.type name).extracted :=
    List.mem_append_right _ List.mem_cons_self
  have hplaced : u.graph.next ∈ (u.extract c i f.type name).extracted :=
    List.mem_append_right _ (List.mem_cons_of_mem _ List.mem_cons_self)
  have hnodes (h : Handle) (n : Node) (hn : u.graph.get? h = some n) :
      ∃ n', (u.extract c i f.type name).graph.get? h = some n' ∧
        n.Unnests u.graph (u.extract c i f.type name).graph (u.extract c i f.type name).extracted
          n' := by
    by_cases hh : h = c
    · subst hh
      rw [hbody] at hn
      cases hn
      have hmoved := Field.Unnests.moved hi (Nat.le_refl _) hnext rfl hin hplaced
      have hfields := forall₂_modify
        (f := fun f => { f with type := u.graph.next, inline := false })
        Field.Unnests.same hmoved body.fields i hfi
      rw [← hgraph] at hself
      exact ⟨_, hself, .container rfl (fun ht => ht) hfields⟩
    · exact ⟨n, (extract_get?_ne hf _ _ hh (Graph.lt_of_get? hn)).trans hn, .same⟩
  constructor
  case size => rw [extract_size hf]; exact Nat.le_succ _
  case nodes => exact hnodes
  case fresh =>
    intro h n hn hh
    have he := extract_new hf hn hh
    rw [he] at hn ⊢
    rw [hnext] at hn
    cases hn
    obtain ⟨m, hm, hmb⟩ := hb
    obtain ⟨m', hm', hmm⟩ := hnodes f.type m hm
    exact ⟨hplaced, _, f.type, rfl, rfl, hin, m', hm', hmm.hasBody.trans hmb⟩
  case names =>
    intro h d hd hh
    rw [extract_new hf hd hh, hnext] at hd
    cases hd
    exact ⟨outer, inner, by rw [hname]⟩
  case tags => exact fun h n n' hn hn' => .inl (extract_tag hf hn hn')

/-! ## Steps -/

/-- An aggregate is named, or one that is named and flat is extracted. -/
inductive Step : Unnesting → Unnesting → Prop where
  | name (u : Unnesting) {c h : Handle} (outer inner : String) (inline : u.graph.Inline c h)
      (body : u.graph.HasBody h) :
    Step u { u with graph := u.graph.setTag h (mangle outer inner) }
  | extract (u : Unnesting) {c : Handle} {i : Nat} {f : Field} (outer inner : String)
      (field : u.field? c i = some f) (inline : f.inline = true) (body : u.graph.HasBody f.type)
      (flat : u.graph.Flat f.type)
      (tagged : ∀ n, u.graph.get? f.type = some n → n.tag?.isSome = true) :
    Step u (u.extract c i f.type (mangle outer inner))

abbrev Steps : Unnesting → Unnesting → Prop := Relation.ReflTransGen Step

theorem Step.unnests (h : Step u v) : u.graph.Unnests v.graph v.extracted := by
  cases h with
  | name outer inner inline body => exact Graph.setTag_unnests inline body outer inner _
  | extract outer inner field inline body _ _ =>
    exact extract_unnests field inline body outer inner

theorem Step.grows (h : Step u v) : ∃ ex, v.extracted = u.extracted ++ ex := by
  cases h with
  | name => exact ⟨[], (List.append_nil _).symm⟩
  | extract => exact ⟨_, rfl⟩

theorem Steps.grows (h : Steps u v) : ∃ ex, v.extracted = u.extracted ++ ex := by
  induction h with
  | refl => exact ⟨[], (List.append_nil _).symm⟩
  | tail _ hstep ih =>
    obtain ⟨ex, hex⟩ := ih
    obtain ⟨ex', hex'⟩ := hstep.grows
    exact ⟨ex ++ ex', by rw [hex', hex, List.append_assoc]⟩

theorem Steps.unnests (h : Steps u v) : u.graph.Unnests v.graph v.extracted := by
  induction h with
  | refl => exact .refl _ _
  | tail _ hstep ih =>
    obtain ⟨ex, hex⟩ := hstep.grows
    exact ih.trans hstep.unnests fun k hk => hex ▸ List.mem_append_left _ hk

theorem Step.module (h : Step u v) : v.graph.module = u.graph.module := by
  cases h with
  | name outer inner inline body =>
    obtain ⟨n, hn, _⟩ := body
    simp only [Graph.setTag, hn]
    rfl
  | extract outer inner field =>
    obtain ⟨kind, body, hbody, _⟩ := field?_eq_some.mp field
    rw [extract_graph hbody]
    rfl

theorem Steps.module (h : Steps u v) : v.graph.module = u.graph.module := by
  induction h with
  | refl => rfl
  | tail _ hstep ih => exact hstep.module.trans ih

/-- Every new node is counted, and beside the nodes nothing changes. -/
structure Counts (u v : Unnesting) : Prop where
  containers : v.graph.size + u.stats.containersExtracted =
    u.graph.size + v.stats.containersExtracted
  typedefs : v.graph.size + u.stats.typedefsCreated = u.graph.size + v.stats.typedefsCreated
  fundamentals : v.graph.fundamentals = u.graph.fundamentals

theorem Counts.refl (u : Unnesting) : Counts u u := ⟨rfl, rfl, rfl⟩

theorem Counts.trans (h : Counts u v) (h' : Counts v w) : Counts u w where
  containers := by
    have := h.containers
    have := h'.containers
    omega
  typedefs := by
    have := h.typedefs
    have := h'.typedefs
    omega
  fundamentals := h'.fundamentals.trans h.fundamentals

theorem Step.counts (h : Step u v) : Counts u v := by
  cases h with
  | name outer inner inline body =>
    obtain ⟨n, hn, _⟩ := body
    simp only [Graph.setTag, hn]
    exact ⟨by rw [Graph.size_set], by rw [Graph.size_set], rfl⟩
  | @extract c i f outer inner field =>
    obtain ⟨kind, body, hbody, _⟩ := field?_eq_some.mp field
    generalize mangle outer inner = name
    have hsize := extract_size field f.type name
    constructor
    case containers =>
      show (u.extract c i f.type name).graph.size + _ = _ + (u.stats.containersExtracted + 1)
      omega
    case typedefs =>
      show (u.extract c i f.type name).graph.size + _ = _ + (u.stats.typedefsCreated + 1)
      omega
    case fundamentals => rw [extract_graph hbody]; rfl

theorem Steps.counts (h : Steps u v) : Counts u v := by
  induction h with
  | refl => exact .refl u
  | tail _ hstep ih => exact ih.trans hstep.counts

/-- An extracted handle is that of a new typedef, or of an aggregate that is named and flat. -/
def Extracted (size : Nat) (g : Graph) (k : Handle) : Prop :=
  (size ≤ k.index ∧ k.index < g.size) ∨
    g.HasBody k ∧ g.Flat k ∧ ∀ n, g.get? k = some n → n.tag?.isSome = true

theorem Extracted.unnests {g g' : Graph} {ex : List Handle} {size : Nat} {k : Handle}
    (h : Extracted size g k) (hu : g.Unnests g' ex) : Extracted size g' k := by
  refine h.imp (.imp_right (Nat.lt_of_lt_of_le · hu.size))
    fun ⟨hb, hf, ht⟩ => ⟨hu.hasBody.mpr hb, hu.flat hf, fun n hn => ?_⟩
  obtain ⟨m, hm, _⟩ := hb
  obtain ⟨n', hn', hmn⟩ := hu.nodes k m hm
  rw [hn] at hn'
  cases hn'
  exact hmn.tagged (ht m hm)

theorem Steps.extracted {size : Nat} (h : Steps u v) (hs : size ≤ u.graph.size)
    (hall : ∀ k ∈ u.extracted, Extracted size u.graph k) :
    ∀ k ∈ v.extracted, Extracted size v.graph k := by
  induction h with
  | refl => exact hall
  | @tail v w hsteps hstep ih =>
    have hsize : size ≤ v.graph.size := Nat.le_trans hs (Steps.unnests hsteps).size
    intro k hk
    cases hstep with
    | name outer inner inline body =>
      exact (ih k hk).unnests (Graph.setTag_unnests inline body outer inner [])
    | extract outer inner field inline body flat tagged =>
      have hu := extract_unnests field inline body outer inner
      rcases List.mem_append.mp hk with hk | hk
      · exact (ih k hk).unnests hu
      · rcases List.mem_cons.mp hk with rfl | hk
        · exact Extracted.unnests (.inr ⟨body, flat, tagged⟩) hu
        · rw [List.mem_singleton.mp hk]
          refine .inl ⟨hsize, ?_⟩
          rw [extract_size field]
          exact Nat.lt_succ_self _

theorem Extracted.lt_size {g : Graph} {size : Nat} {k : Handle} (h : Extracted size g k) :
    k.index < g.size := by
  rcases h with ⟨_, hlt⟩ | ⟨⟨n, hn, _⟩, _⟩
  · exact hlt
  · exact Graph.lt_of_get? hn

/-! ## Unnesting ends -/

def KeepsTags (g g' : Graph) (ex : List Handle) : Prop :=
  ∀ h n n', g.get? h = some n → g'.get? h = some n' → n'.tag? = n.tag? ∨ h ∈ ex

theorem KeepsTags.refl (g : Graph) (ex : List Handle) : KeepsTags g g ex :=
  fun _ _ _ hn hn' => .inl (by rw [Option.some.inj (hn.symm.trans hn')])

theorem KeepsTags.trans {g₁ g₂ g₃ : Graph} {ex ex' : List Handle} (h : KeepsTags g₁ g₂ ex)
    (h' : KeepsTags g₂ g₃ ex') (hu : g₁.Unnests g₂ ex) (hex : ∀ k ∈ ex, k ∈ ex') :
    KeepsTags g₁ g₃ ex' := by
  intro k n n'' hn hn''
  obtain ⟨n', hn', _⟩ := hu.nodes k n hn
  rcases h' k n' n'' hn' hn'' with he | hk
  · exact (h k n n' hn hn').imp he.trans (hex k)
  · exact .inr hk

section
variable {rank : Handle → Nat}

/-- What unnesting inside of a type of lower rank does. -/
structure Inside (rank : Handle → Nat) (c : Handle) (u v : Unnesting) : Prop where
  steps : Steps u v
  outside : ∀ h, rank c < rank h → h.index < u.graph.size → v.graph.get? h = u.graph.get? h
  reached : ∀ k ∈ v.extracted, k ∈ u.extracted ∨ u.graph.size ≤ k.index ∨
    Relation.TransGen u.graph.Holds c k
  tags : KeepsTags u.graph v.graph v.extracted

theorem Inside.refl (u : Unnesting) : Inside rank c u u :=
  ⟨.refl, fun _ _ _ => rfl, fun _ => .inl, .refl _ _⟩

theorem Inside.trans (h : Inside rank c u v) (h' : Inside rank c v w) : Inside rank c u w where
  steps := h.steps.trans h'.steps
  outside k hk hlt := (h'.outside k hk (Nat.lt_of_lt_of_le hlt h.steps.unnests.size)).trans
    (h.outside k hk hlt)
  reached k hk := by
    rcases h'.reached k hk with hk | hk | hk
    · exact h.reached k hk
    · exact .inr (.inl (Nat.le_trans h.steps.unnests.size hk))
    · exact .inr (.inr (h.steps.unnests.holds_trans hk))
  tags := by
    obtain ⟨ex, hex⟩ := h'.steps.grows
    exact h.tags.trans h'.tags h.steps.unnests fun k hk => hex ▸ List.mem_append_left _ hk

/-- Nothing is to be extracted at the place of a field. -/
def Settled (u : Unnesting) (c : Handle) (i : Nat) : Prop :=
  ∀ f, u.field? c i = some f → f.inline = true → ¬u.graph.HasBody f.type

/-- Unnesting the fields of inner types is unnesting inside of them. -/
def Unnests (rank : Handle → Nat) (inside : Handle → String → Unnesting → Except Fault Unnesting)
    (k : Handle) : Prop :=
  ∀ name u, u.graph.InRange → u.graph.RankedBelow rank k →
    ∃ v, inside k name u = .ok v ∧ Inside rank k u v ∧ v.graph.Flat k

theorem extract_settled (hf : u.field? c i = some f) (inner : Handle) (name : String) :
    Settled (u.extract c i inner name) c i := by
  intro f' hf' hi'
  rw [field?_extract hf, Option.some.injEq] at hf'
  rw [← hf'] at hi'
  cases hi'

theorem field?_outside (hin : Inside rank h u v) (hf : u.field? c i = some f)
    (hrank : rank h < rank c) : v.field? c i = some f := by
  obtain ⟨kind, body, hbody, hfi⟩ := field?_eq_some.mp hf
  exact field?_eq_some.mpr
    ⟨kind, body, (hin.outside c hrank (Graph.lt_of_get? hbody)).trans hbody, hfi⟩

abbrev named (u : Unnesting) (h : Handle) (name : String) : Unnesting :=
  { u with graph := u.graph.setTag h name }

theorem named_graph {n : Node} (hn : u.graph.get? h = some n) (name : String) :
    (u.named h name).graph = u.graph.set h (n.withTag name) := by
  simp only [Graph.setTag, hn]

/-- An aggregate that is named, and then emptied, is extracted. -/
theorem extract_runs {outer inner : String} (hf : u.field? c i = some f) (hi : f.inline = true)
    (hb : u.graph.HasBody f.type) (hr : u.graph.RankedBelow rank c)
    (hin : Inside rank f.type (u.named f.type (mangle outer inner)) v)
    (hflat : v.graph.Flat f.type) :
    Inside rank c u (v.extract c i f.type (mangle outer inner)) ∧
      Settled (v.extract c i f.type (mangle outer inner)) c i := by
  obtain ⟨kind, body, hbody, hfi⟩ := field?_eq_some.mp hf
  obtain ⟨n, hn, hnb⟩ := hb
  have hinline := inline_of_field hf hi
  have hholds : u.graph.Holds c f.type := ⟨hinline, n, hn, hnb⟩
  have hlt : rank f.type < rank c := hr.lt_of_holds (.single hholds)
  have hstep : Step u (u.named f.type (mangle outer inner)) :=
    .name u outer inner hinline ⟨n, hn, hnb⟩
  have hkept (h : Handle) (hne : h ≠ f.type) :
      (u.named f.type (mangle outer inner)).graph.get? h = u.graph.get? h := by
    rw [named_graph hn, Graph.get?_set_ne _ hne]
  have hself : (u.named f.type (mangle outer inner)).graph.get? f.type =
      some (n.withTag (mangle outer inner)) := by
    rw [named_graph hn, Graph.get?_set_self hn]
  have hne : c ≠ f.type := fun he => Nat.lt_irrefl _ (he ▸ hlt)
  -- what happens inside of the type of the field leaves the field as it was
  have hv : v.field? c i = some f :=
    field?_outside hin (field?_eq_some.mpr ⟨kind, body, (hkept c hne).trans hbody, hfi⟩) hlt
  have hun := hstep.unnests.trans hin.steps.unnests fun k hk => by
    obtain ⟨ex, hex⟩ := hin.steps.grows
    exact hex ▸ List.mem_append_left _ hk
  have htag (m : Node) (hm : v.graph.get? f.type = some m) : m.tag?.isSome = true := by
    obtain ⟨m', hm', hmn⟩ := hin.steps.unnests.nodes f.type _ hself
    rw [hm] at hm'
    cases hm'
    exact hmn.tagged (by rw [Node.tag?_withTag hnb]; rfl)
  refine ⟨⟨.head hstep
    (hin.steps.tail (.extract v outer inner hv hi (hun.hasBody.mpr ⟨n, hn, hnb⟩) hflat
    htag)), ?outside, ?reached, ?tags⟩, extract_settled hv f.type _⟩
  case outside =>
    intro h hrank hh
    have hhc : h ≠ c := fun he => Nat.lt_irrefl _ (he ▸ hrank)
    have hhf : h ≠ f.type := fun he => Nat.lt_asymm hlt (he ▸ hrank)
    rw [extract_get?_ne hv _ _ hhc (Nat.lt_of_lt_of_le hh hun.size), hin.outside h
      (Nat.lt_trans hlt hrank) (Nat.lt_of_lt_of_le hh hstep.unnests.size), hkept h hhf]
  case reached =>
    intro k hk
    rcases List.mem_append.mp hk with hk | hk
    · rcases hin.reached k hk with hk | hk | hk
      · exact .inl hk
      · exact .inr (.inl (Nat.le_trans hstep.unnests.size hk))
      · exact .inr (.inr (.head hholds (hstep.unnests.holds_trans hk)))
    · rcases List.mem_cons.mp hk with rfl | hk
      · exact .inr (.inr (.single hholds))
      · rw [List.mem_singleton.mp hk]
        exact .inr (.inl hun.size)
  case tags =>
    intro h m m'' hm hm''
    -- the extracted node is the one that this step gives a tag
    by_cases hh : h = f.type
    · exact .inr (hh ▸ List.mem_append_right _ List.mem_cons_self)
    · obtain ⟨m', hm', _⟩ := hun.nodes h m hm
      rw [extract_tag hv hm' hm'']
      exact (hin.tags h m m' ((hkept h hh).trans hm) hm').imp_right (List.mem_append_left _)

/-- A field either has nothing to extract, or its type is named, emptied where it has fields
itself, and extracted. -/
theorem field_ok {inside : Handle → String → Unnesting → Except Fault Unnesting} {outer : String}
    (h : field inside c outer u i = .ok v) : (v = u ∧ Settled u c i) ∨
      ∃ f n name w, u.field? c i = some f ∧ f.inline = true ∧ u.graph.get? f.type = some n ∧
        n.hasBody = true ∧ name = mangle outer (n.tag?.getD f.name) ∧
        v = w.extract c i f.type name ∧ (inside f.type name (u.named f.type name) = .ok w ∨
          w = u.named f.type name ∧ ∃ e, n = .enumeration e) := by
  unfold field at h
  cases hf : u.field? c i with
  | none =>
    rw [hf] at h
    cases h
    exact .inl ⟨rfl, fun f' hf' => by rw [hf] at hf'; cases hf'⟩
  | some f =>
    have hstay (hno : ¬(f.inline = true ∧ u.graph.HasBody f.type)) : Settled u c i := by
      intro f' hf' hi' hb'
      rw [hf] at hf'
      cases hf'
      exact hno ⟨hi', hb'⟩
    cases hi : f.inline with
    | false =>
      simp only [hf, hi, Bool.not_false, if_true] at h
      cases h
      exact .inl ⟨rfl, hstay (by simp [hi])⟩
    | true =>
      simp only [hf, hi, Bool.not_true, Bool.false_eq_true, if_false] at h
      obtain ⟨n, hget, h⟩ := exists_of_bind h
      have hn : u.graph.get? f.type = some n := Graph.get_eq_ok.mp hget
      cases hb : n.hasBody with
      | false =>
        simp only [hb, Bool.not_false, if_true] at h
        cases h
        refine .inl ⟨rfl, hstay ?_⟩
        intro ⟨_, hbody⟩
        simp [hbody.of_get? hn] at hb
      | true =>
        simp only [hb, Bool.not_true, Bool.false_eq_true, if_false] at h
        refine .inr ⟨f, n, mangle outer (n.tag?.getD f.name), ?_⟩
        -- only a struct or union has something inside
        cases n with
        | container kind body =>
          obtain ⟨w, hw, h⟩ := exists_of_bind h
          cases h
          exact ⟨w, rfl, hi, hn, hb, rfl, rfl, .inl hw⟩
        | enumeration e =>
          cases h
          exact ⟨_, rfl, hi, hn, hb, rfl, rfl, .inr ⟨rfl, e, rfl⟩⟩
        | _ => cases hb

theorem field_runs {inside : Handle → String → Unnesting → Except Fault Unnesting}
    (hinside : ∀ k, rank k < rank c → Unnests rank inside k) (outer : String) (i : Nat)
    (hc : u.graph.InRange) (hr : u.graph.RankedBelow rank c) :
    ∃ v, field inside c outer u i = .ok v ∧ Inside rank c u v ∧ Settled v c i := by
  unfold field
  cases hf : u.field? c i with
  | none => exact ⟨u, rfl, .refl u, fun f hf' => by rw [hf] at hf'; cases hf'⟩
  | some f =>
    have hstay (h : ¬(f.inline = true ∧ u.graph.HasBody f.type)) : Settled u c i := by
      intro f' hf' hi' hb'
      rw [hf] at hf'
      cases hf'
      exact h ⟨hi', hb'⟩
    cases hi : f.inline with
    | false =>
      simp only [hi, Bool.not_false, if_true]
      exact ⟨u, rfl, .refl u, hstay fun h => by rw [hi] at h; cases h.1⟩
    | true =>
      obtain ⟨kind, body, hbody, hfi⟩ := field?_eq_some.mp hf
      have hlt : f.type.index < u.graph.size :=
        hc c _ hbody _ (List.mem_map_of_mem (List.mem_of_getElem? hfi))
      obtain ⟨n, hn⟩ := Graph.get?_of_lt hlt
      have hget : u.graph.get f.type = .ok n := by simp only [Graph.get, hn]
      simp only [hi, Bool.not_true, Bool.false_eq_true, if_false, hget]
      cases hb : n.hasBody with
      | false =>
        refine ⟨u, by simp only [bind, Except.bind, hb, Bool.not_false, if_true]; rfl, .refl u,
          hstay fun ⟨_, m, hm, hmb⟩ => ?_⟩
        rw [hn] at hm
        cases hm
        rw [hb] at hmb
        cases hmb
      | true =>
        have hinline := inline_of_field hf hi
        have hbody' : u.graph.HasBody f.type := ⟨n, hn, hb⟩
        let name := mangle outer (n.tag?.getD f.name)
        have hun := (Step.name u outer (n.tag?.getD f.name) hinline hbody').unnests
        have hnode : (u.named f.type name).graph.get? f.type = some (n.withTag name) := by
          rw [named_graph hn, Graph.get?_set_self hn]
        -- only a struct or union has something inside
        cases n with
        | container kind body =>
          obtain ⟨v, hv, hin, hflat⟩ := hinside f.type (hr c f.type .refl ⟨hinline, hbody'⟩) name
            (u.named f.type name) (hun.inRange hc) (hun.rankedBelow (hr.held ⟨hinline, hbody'⟩))
          refine ⟨_, ?_, extract_runs hf hi hbody' hr hin hflat⟩
          simp only [bind, Except.bind, hb, Bool.not_true, Bool.false_eq_true, if_false]
          rw [show inside f.type _ _ = _ from hv]
          rfl
        | enumeration e =>
          refine ⟨_, ?_, extract_runs hf hi hbody' hr (.refl (u.named f.type name))
            fun _ hi' _ => Graph.not_inline_enumeration hnode hi'⟩
          simp only [bind, Except.bind, hb, Bool.not_true, Bool.false_eq_true, if_false]
          rfl
        | _ => cases hb

theorem Settled.steps (h : Settled u c i) (hs : Steps u v) : Settled v c i := by
  intro f' hf' hi hb
  obtain ⟨kind, body', hbody', hfi'⟩ := field?_eq_some.mp hf'
  have hun := hs.unnests
  by_cases hlt : c.index < u.graph.size
  · obtain ⟨n, hn⟩ := Graph.get?_of_lt hlt
    obtain ⟨n', hn', hnn⟩ := hun.nodes c n hn
    rw [hbody'] at hn'
    cases hn'
    cases hnn with
    | same => exact h f' (field?_eq_some.mpr ⟨kind, body', hn, hfi'⟩) hi (hun.hasBody.mp hb)
    | container _ _ fields =>
      obtain ⟨f, hfi, hff⟩ := getElem?_of_forall₂ fields hfi'
      cases hff with
      | same => exact h f' (field?_eq_some.mpr ⟨kind, _, hn, hfi⟩) hi (hun.hasBody.mp hb)
      | moved => cases hi
  · obtain ⟨_, _, _, he, _⟩ := hun.fresh c _ hbody' (Nat.not_lt.mp hlt)
    cases he

theorem fields_run {inside : Handle → String → Unnesting → Except Fault Unnesting}
    (hinside : ∀ k, rank k < rank c → Unnests rank inside k) (outer : String) (is : List Nat)
    (hc : u.graph.InRange) (hr : u.graph.RankedBelow rank c) :
    ∃ v, is.foldlM (field inside c outer) u = .ok v ∧ Inside rank c u v ∧
      ∀ i ∈ is, Settled v c i := by
  induction is generalizing u with
  | nil => exact ⟨u, rfl, .refl u, fun _ hi => nomatch hi⟩
  | cons i is ih =>
    obtain ⟨v, hv, huv, hset⟩ := field_runs hinside outer i hc hr
    have hun := huv.steps.unnests
    obtain ⟨w, hw, hvw, hall⟩ := ih (hun.inRange hc) (hun.rankedBelow hr)
    refine ⟨w, ?_, huv.trans hvw, ?_⟩
    · rw [List.foldlM_cons, hv]
      exact hw
    · intro j hj
      rcases List.mem_cons.mp hj with rfl | hj
      · exact hset.steps hvw.steps
      · exact hall j hj

/-- With more fuel than the rank of a container, unnesting it succeeds and leaves it flat. -/
theorem container_runs (n : Nat) : ∀ c, rank c < n → Unnests rank (container n) c := by
  induction n with
  | zero => exact fun c hc => absurd hc (Nat.not_lt_zero _)
  | succ n ih =>
    intro c hn outer u hc hr
    obtain ⟨v, hv, huv, hall⟩ := fields_run (c := c)
      (fun k hk => ih k (Nat.lt_of_lt_of_le hk (Nat.lt_succ_iff.mp hn))) outer
      (List.range ((u.graph.container? c).elim 0 (·.fields.length))) hc hr
    refine ⟨v, hv, huv, ?_⟩
    rintro k ⟨kind, body', hbody', f, hf, hi, rfl⟩ hb
    obtain ⟨i, hfi⟩ := List.getElem?_of_mem hf
    refine hall i ?_ f (field?_eq_some.mpr ⟨kind, body', hbody', hfi⟩) hi hb
    obtain ⟨_, body, hbody, _⟩ :=
      huv.steps.unnests.inline ⟨kind, body', hbody', f, hf, hi, rfl⟩
    have hlen : body'.fields.length = body.fields.length := by
      obtain ⟨n', hn', hnn⟩ := huv.steps.unnests.nodes c _ hbody
      rw [hbody'] at hn'
      cases hn'
      cases hnn with
      | same => rfl
      | container _ _ fields => exact fields.length_eq.symm
    rw [Graph.container?_eq_some.mpr ⟨_, hbody⟩, List.mem_range]
    show i < body.fields.length
    exact hlen ▸ (List.getElem?_eq_some_iff.mp hfi).1

end

end Unnesting

end CythonDecls
