import CythonDecls.Proofs.Translation.ItemWalks
import CythonDecls.Proofs.Unnest.Loop
import CythonDecls.Proofs.Unnest.Names

/-!
# Bodies without their own tag inside

A tag may be defined several times, and a later body replaces an earlier one.
As long as no struct or union has a body of its own tag inside of it, no
container ends up inside of itself: a body is written when all that is inside
of it has been, and into another node than those. What is inside of a body was
written by the same walk, even where an older body of that tag is still around.
-/

namespace CythonDecls

/-- No body inside of this one defines the same tag. -/
def Body.TagOutside : Body → Prop
  | .container _ kind (some tag) ms => ∀ b ∈ bodiesOfMembers ms, b.key? ≠ some (some kind, tag)
  | _ => True

instance (b : Body) : Decidable b.TagOutside := by
  unfold Body.TagOutside
  split
  · exact inferInstance
  · exact inferInstance

theorem Body.TagOutside.key_ne {place : Body.Place} {kind : ContainerKind} {tag : Option String}
    {ms : List Member} (h : (Body.container place kind tag ms).TagOutside) :
    ∀ b ∈ bodiesOfMembers ms, ∀ key, b.key? = some key → tag.map (some kind, ·) ≠ some key := by
  intro b hb key hkey
  cases tag with
  | none => exact nofun
  | some tag => exact fun he => h b hb (hkey.trans he.symm)

/-- No struct or union of the unit has a definition of its own tag inside of it. -/
def SourceUnit.TagsOutside (u : SourceUnit) : Prop := ∀ b ∈ u.bodies, b.TagOutside

instance (u : SourceUnit) : Decidable u.TagsOutside :=
  inferInstanceAs (Decidable (∀ b ∈ u.bodies, b.TagOutside))

namespace Graph

variable {g g' : Graph}

theorem Acyclic.mono (ha : g.Acyclic) (hi : ∀ h k, g'.Inline h k → g.Inline h k) : g'.Acyclic :=
  fun h hh => ha h (Relation.TransGen.mono hi _ _ hh)

theorem Acyclic.rewrite (ha : g.Acyclic) {x : Handle} {inner : Handle → Prop} (hx : ¬inner x)
    (hkept : ∀ h k, h ≠ x → g'.Inline h k → g.Inline h k) (hout : ∀ k, g'.Inline x k → inner k)
    (hinner : ∀ h k, inner h → g'.Inline h k → inner k) : g'.Acyclic := by
  have hbelow {k : Handle} (hk : Relation.TransGen g'.Inline x k) : inner k := by
    induction hk with
    | single hi => exact hout _ hi
    | tail _ hi ih => exact hinner _ _ ih hi
  -- a path avoids the node, or it can be cut there
  have hpath {h k : Handle} (hk : Relation.TransGen g'.Inline h k) :
      Relation.TransGen g.Inline h k ∨
        Relation.ReflTransGen g'.Inline h x ∧ Relation.TransGen g'.Inline x k := by
    induction hk with
    | @single k hi =>
      by_cases hh : h = x
      · exact .inr ⟨hh ▸ .refl, hh ▸ .single hi⟩
      · exact .inl (.single (hkept h k hh hi))
    | @tail l k hl hi ih =>
      by_cases hlx : l = x
      · exact .inr ⟨hlx ▸ hl.to_reflTransGen, hlx ▸ .single hi⟩
      · exact ih.imp (·.tail (hkept l k hlx hi)) fun ⟨hx, hxl⟩ => ⟨hx, hxl.tail hi⟩
  intro h hh
  rcases hpath hh with hold | ⟨hhx, hxh⟩
  · exact ha h hold
  · exact hx (hbelow (hxh.trans_left hhx))

end Graph

namespace Translator

theorem Step.inline {t t' : Translator} {hs : List Handle} (h : t.Step t' hs) {k l : Handle}
    (hk : k ∉ hs) (hi : t'.graph.Inline k l) : t.graph.Inline k l := by
  obtain ⟨kind, c, hc, f, hf, hfl⟩ := hi
  obtain ⟨n, hn, hb⟩ := Graph.hasBody_of_field hc hf
  rw [hc] at hn
  cases hn
  exact ⟨kind, c, h.bodies k _ hc hb hk, f, hf, hfl⟩

/-- From `t` to `t'`, the bodies `bs` are written in the nodes of `hs`, which
are closed under inline fields. -/
structure Nests (t t' : Translator) (bs : List Body) (hs : List Handle) : Prop where
  step : t.Step t' hs
  inside : ∀ h ∈ hs, ∀ k, t'.graph.Inline h k → k ∈ hs
  origin : ∀ h ∈ hs, t.graph.size ≤ h.index ∨
    ∃ b ∈ bs, ∃ key, b.key? = some key ∧ t.lookup key = some h
  acyclic : t.graph.Acyclic → t'.graph.Acyclic

section
variable {t₁ t₂ t₃ : Translator} {bs cs : List Body} {hs ks : List Handle}

theorem Step.nests (h : t₁.Step t₂ []) : Nests t₁ t₂ [] [] where
  step := h
  inside _ hh := nomatch hh
  origin _ hh := nomatch hh
  acyclic ha := ha.mono fun _ _ => h.inline List.not_mem_nil

theorem Nests.append (h : Nests t₁ t₂ bs hs) (h' : Nests t₂ t₃ cs ks) :
    Nests t₁ t₃ (bs ++ cs) (hs ++ ks) where
  step := h.step.trans h'.step
  inside k hk l hl := by
    by_cases hks : k ∈ ks
    · exact List.mem_append_right _ (h'.inside k hks l hl)
    · have hkhs : k ∈ hs := (List.mem_append.mp hk).resolve_right hks
      exact List.mem_append_left _ (h.inside k hkhs l (h'.step.inline hks hl))
  origin k hk := by
    rcases List.mem_append.mp hk with hk | hk
    · exact (h.origin k hk).imp_right fun ⟨b, hb, hkey⟩ => ⟨b, List.mem_append_left _ hb, hkey⟩
    · rcases h'.origin k hk with hlt | ⟨b, hb, key, hkey, hlook⟩
      · exact .inl (Nat.le_trans h.step.size hlt)
      · rcases h.step.tags key k hlook with hlook | hlt
        · exact .inr ⟨b, List.mem_append_right _ hb, key, hkey, hlook⟩
        · exact .inl hlt
  acyclic ha := h'.acyclic (h.acyclic ha)

theorem Nests.then_step (h : Nests t₁ t₂ bs hs) (h' : t₂.Step t₃ []) : Nests t₁ t₃ bs hs := by
  simpa using h.append h'.nests

theorem Nests.after_step (h : Nests t₂ t₃ bs hs) (h' : t₁.Step t₂ []) : Nests t₁ t₃ bs hs :=
  h'.nests.append h

theorem Nests.write (h : Nests t₁ t₂ bs hs) {x : Handle} {n : Node} {b : Body} (hx : x ∉ hs)
    (horigin : t₁.graph.size ≤ x.index ∨ ∃ key, b.key? = some key ∧ t₁.lookup key = some x)
    (hinline : ∀ k, (t₂.graph.set x n).Inline x k → k ∈ hs) :
    Nests t₁ { t₂ with graph := t₂.graph.set x n } (bs ++ [b]) (hs ++ [x]) := by
  have hkept {k : Handle} (hk : k ≠ x) : (t₂.graph.set x n).get? k = t₂.graph.get? k :=
    Graph.get?_set_ne _ hk n
  have hold (k l : Handle) (hk : k ≠ x) (hi : (t₂.graph.set x n).Inline k l) :
      t₂.graph.Inline k l := by
    obtain ⟨kind, c, hc, hf⟩ := hi
    exact ⟨kind, c, (hkept hk).symm.trans hc, hf⟩
  have hclosed (k l : Handle) (hk : k ∈ hs) (hi : (t₂.graph.set x n).Inline k l) : l ∈ hs :=
    h.inside k hk l (hold k l (fun he => hx (he ▸ hk)) hi)
  constructor
  case step =>
    constructor
    case kept =>
      intro k m hm ha hk
      rw [List.mem_append, not_or, List.mem_singleton] at hk
      exact (hkept hk.2).trans (h.step.kept k m hm ha hk.1)
    case bodies =>
      intro k m hm hb hk
      rw [List.mem_append, not_or, List.mem_singleton] at hk
      exact h.step.bodies k m ((hkept hk.2).symm.trans hm) hb hk.1
    case size => exact Nat.le_trans h.step.size (Nat.le_of_eq (Graph.size_set ..).symm)
    case tags =>
      intro key k hk
      rw [lookup_withGraph] at hk
      exact h.step.tags key k hk
  case inside =>
    intro k hk l hl
    apply List.mem_append_left
    by_cases hkx : k = x
    · exact hinline l (hkx ▸ hl)
    · have hmem : k ∈ hs := (List.mem_append.mp hk).resolve_right (by simpa using hkx)
      exact hclosed k l hmem hl
  case origin =>
    intro k hk
    rcases List.mem_append.mp hk with hk | hk
    · exact (h.origin k hk).imp_right fun ⟨b, hb, hkey⟩ => ⟨b, List.mem_append_left _ hb, hkey⟩
    · rw [List.mem_singleton.mp hk]
      refine horigin.imp_right fun ⟨key, hkey⟩ => ⟨b, ?_, key, hkey⟩
      exact List.mem_append_right _ (List.mem_singleton_self b)
  case acyclic => exact fun ha => (h.acyclic ha).rewrite hx hold hinline hclosed

end

end Translator

namespace Walk

open Translator

/-- The walk writes the bodies `bs` in nodes closed under inline fields. -/
def Encloses {α : Type} (t : Translator) (w : Walk α) (bs : List Body)
    (Q : α → List Handle → Prop) : Prop :=
  Ensures t w fun a t' => ∃ hs, t.Nests t' bs hs ∧ Q a hs

theorem enumeration_encloses {t : Translator} (s : t.Sound) (place : Body.Place) (spec : EnumSpec)
    (invented : Option String) :
    Encloses t (enumeration spec invented) (spec.bodies place) fun h hs =>
      spec.enumerators.isSome → h ∈ hs := by
  obtain ⟨tag, es, location⟩ := spec
  unfold enumeration
  refine .bind (enumNode_leads s tag invented location)
    (openNode_ensures s none tag invented location) ?_
  rintro h t₁ s₁ _ ⟨_, e, he, _⟩ ⟨hr, -⟩
  cases es with
  | none => exact .pure ⟨[], hr.step.nests, fun h => nomatch h⟩
  | some es =>
    refine .bind (enumValues_leads s₁ es) (enumValues_ensures es) ?_
    rintro values t₁ s₁ _ - ⟨rfl, -⟩
    refine .bind (setValues_leads s₁ he values location) (setValues_ensures he values location) ?_
    rintro _ _ _ _ - ⟨e', -, -, rfl⟩
    have hget := Graph.get?_set_self he (.enumeration e')
    refine .pure ⟨[h], ?_, fun _ => List.mem_singleton_self h⟩
    exact hr.step.nests.write (b := .enumeration place tag es) List.not_mem_nil (hr.key rfl rfl)
      fun k hi => absurd hi (Graph.not_inline_enumeration hget)

/-- What a type encloses. A definition is one of the written nodes. -/
def TypeEncloses (site : Site) (ty : TypeExpr) : Prop :=
  ∀ t place, t.Sound → (∀ b ∈ ty.bodies place, b.TagOutside) →
    Encloses t (resolve site ty) (ty.bodies place) fun h hs => ty.isDefinition = true → h ∈ hs

/-- What members enclose. Inline fields have written nodes. -/
def MembersEnclose (owner : Option String) (label : String) (ms : List Member) : Prop :=
  ∀ t, t.Sound → (∀ b ∈ bodiesOfMembers ms, b.TagOutside) →
    Encloses t (members owner label ms) (bodiesOfMembers ms) fun fields hs =>
      ∀ f ∈ fields, f.inline = true → f.type ∈ hs

theorem body_encloses {kind : ContainerKind} {invented tag : Option String} {ms : List Member}
    {location : Option Location} {t : Translator} (s : t.Sound) (place : Body.Place)
    (ih : ∀ owner label, MembersEnclose owner label ms)
    (hb : ∀ b ∈ ContainerSpec.bodies kind place ⟨tag, some ms, location⟩, b.TagOutside) :
    Encloses t (container kind invented ⟨tag, some ms, location⟩)
      (ContainerSpec.bodies kind place ⟨tag, some ms, location⟩) fun h hs => h ∈ hs := by
  let b : Body := .container place kind tag ms
  have hb : ∀ c ∈ bodiesOfMembers ms ++ [b], c.TagOutside := hb
  rw [List.forall_mem_append, List.forall_mem_singleton] at hb
  unfold container
  refine .bind (containerNode_leads s kind tag invented location)
    (openNode_ensures s (some kind) tag invented location) ?_
  rintro h t₁ s₁ _ ⟨_, c, hn, htag⟩ ⟨hr, -⟩
  refine .of_run (run_named hn _) ?_
  refine .bind (members_leads s₁ _ _ ms) (ih _ _ t₁ s₁ hb.1) ?_
  rintro fields t₂ s₂ e₂ - ⟨hs, hnest, hinline⟩
  obtain ⟨c₂, hn₂, _⟩ := e₂.graph.container hn
  have hnew : h ∉ hs := hr.not_mem s₁ hn htag hnest.origin hb.2.key_ne
  refine .of_run (run_bind_of_ok (setFields_run hn₂ fields location) _) (.pure ?_)
  refine ⟨hs ++ [h], ?_, List.mem_append_right _ (List.mem_singleton_self h)⟩
  refine (hnest.after_step hr.step).write hnew (hr.key rfl rfl) ?_
  rintro k ⟨_, _, hc, f, hf, hi, rfl⟩
  rw [Graph.get?_set_self hn₂] at hc
  cases hc
  exact hinline f hf hi

theorem definition_encloses {t : Translator} (s : t.Sound) (site : Site) {ty : TypeExpr}
    (tag : Option String) {bs : List Body} {w : Option String → Walk Handle}
    (hl : ∀ invented t₁, t₁.Sound → Leads t₁ (w invented) (Resolved t₁ ty))
    (hw : ∀ invented t₁, t₁.Sound →
      Encloses t₁ (w invented) bs fun h hs => ty.isDefinition = true → h ∈ hs) :
    Encloses t (definition site ty tag w) bs fun h hs => ty.isDefinition = true → h ∈ hs := by
  unfold definition
  refine .bind (inventTag_leads s _ site) (inventTag_ensures _ site) ?_
  rintro invented t₁ s₁ _ - ⟨⟨hstep, -⟩, -⟩
  refine .bind (hl invented t₁ s₁) (hw invented t₁ s₁) ?_
  rintro h t₂ s₂ _ - ⟨hs, hn, hdef⟩
  refine (hoistIf_ensures (ty.isDefinition ∧ site.position = .nested) h).weaken ?_
  rintro _ t₃ ⟨rfl, hstep₃, -⟩
  exact ⟨hs, (hn.after_step hstep).then_step hstep₃, hdef⟩

/-- Every walk writes its bodies from the inside out. -/
theorem walks_enclose :
    (∀ site ty, TypeEncloses site ty) ∧
    (∀ name location sig t, t.Sound → (∀ b ∈ sig.bodies, b.TagOutside) →
      Encloses t (function name location sig) sig.bodies fun _ _ => True) ∧
    (∀ name here ds t, t.Sound → (∀ b ∈ bodiesOfParams ds, b.TagOutside) →
      Encloses t (arguments name here ds) (bodiesOfParams ds) fun _ _ => True) ∧
    (∀ kind invented spec t place, t.Sound → (∀ b ∈ spec.bodies kind place, b.TagOutside) →
      Encloses t (container kind invented spec) (spec.bodies kind place) fun h hs =>
        spec.members.isSome → h ∈ hs) ∧
    (∀ owner label ms, MembersEnclose owner label ms) := by
  refine induct ?derived ?word ?container ?enumeration ?function ?reference ?body ?signature
    ?noArgument ?argument ?noMember ?passed ?named ?spliced ?alone
  case derived =>
    intro site d target ih t place s hb
    rw [Indirection.bodies_type] at hb ⊢
    rw [resolve_indirection]
    refine .bind (resolve_leads s site.inside target) (ih t .nested s hb) ?_
    rintro k t₁ s₁ _ - ⟨hs, hn, -⟩
    refine (add_ensures (d.hasBody_node k)).weaken ?_
    rintro h t₂ ⟨hstep, -⟩
    exact ⟨hs, hn.then_step hstep, by simp⟩
  case word =>
    intro site words t place s _
    unfold resolve
    refine (identifier_ensures words site.location).weaken ?_
    rintro h t₁ ⟨hstep, -⟩
    exact ⟨[], hstep.nests, fun hd => Bool.noConfusion hd⟩
  case container =>
    intro site kind spec ih t place s hb
    rw [resolve_container]
    exact definition_encloses s site spec.tag
      (fun invented t₁ s₁ => container_leads s₁ kind invented spec)
      fun invented t₁ s₁ => ih invented t₁ place s₁ hb
  case enumeration =>
    intro site spec t place s _
    rw [resolve_enumeration]
    exact definition_encloses s site spec.tag
      (fun invented t₁ s₁ => enumeration_leads s₁ spec invented)
      fun invented t₁ s₁ => enumeration_encloses s₁ place spec invented
  case function =>
    intro site sig ih t place s hb
    unfold resolve
    refine (ih t s hb).weaken ?_
    rintro h t₁ ⟨hs, hn, -⟩
    exact ⟨hs, hn, fun hd => Bool.noConfusion hd⟩
  case reference =>
    intro kind invented tag location t place s _
    unfold container
    refine (openNode_ensures s (some kind) tag invented location).weaken ?_
    rintro h t₁ ⟨hr, -⟩
    exact ⟨[], hr.step.nests, fun hd => Bool.noConfusion hd⟩
  case body =>
    intro kind invented tag ms location ih t place s hb
    refine (body_encloses s place ih hb).weaken ?_
    rintro h t₁ ⟨hs, hn, hmem⟩
    exact ⟨hs, hn, fun _ => hmem⟩
  case signature =>
    intro name location returns params variadic ihr iha t s hb
    unfold function
    have hb : ∀ b ∈ returns.bodies .nested ++ bodiesOfParams params, b.TagOutside := hb
    rw [List.forall_mem_append] at hb
    refine .bind (resolve_leads s _ returns) (ihr t .nested s hb.1) ?_
    rintro r t₁ s₁ _ - ⟨hs, hn, -⟩
    refine .bind (arguments_leads s₁ name location params) (iha t₁ s₁ hb.2) ?_
    rintro args t₂ s₂ _ - ⟨ks, hn', -⟩
    refine (add_ensures rfl).weaken ?_
    rintro h t₃ ⟨hstep, -⟩
    exact ⟨hs ++ ks, (hn.append hn').then_step hstep, trivial⟩
  case noArgument =>
    intro name here t s _
    unfold arguments
    exact .pure ⟨[], (Step.refl t).nests, trivial⟩
  case argument =>
    intro name here argument type location ds iht ihd t s hb
    unfold arguments
    have hb : ∀ b ∈ type.bodies .nested ++ bodiesOfParams ds, b.TagOutside := hb
    rw [List.forall_mem_append] at hb
    refine .bind (resolve_leads s _ type) (iht t .nested s hb.1) ?_
    rintro h t₁ s₁ _ - ⟨hs, hn, -⟩
    refine .bind (arguments_leads s₁ name here ds) (ihd t₁ s₁ hb.2) ?_
    rintro args t₂ s₂ _ - ⟨ks, hn', -⟩
    exact .pure ⟨hs ++ ks, hn.append hn', trivial⟩
  case noMember =>
    intro owner label t s _
    unfold members
    exact .pure ⟨[], (Step.refl t).nests, fun _ hf => absurd hf List.not_mem_nil⟩
  case passed =>
    intro owner label m ms hm ih t s hb
    rw [bodiesOfMembers_passed hm] at hb ⊢
    rw [members_passed hm]
    exact ih t s hb
  case named =>
    intro owner label name type location ms iht ihm t s hb
    unfold members
    have hb : ∀ b ∈ type.bodies .member ++ bodiesOfMembers ms, b.TagOutside := hb
    rw [List.forall_mem_append] at hb
    refine .bind ((resolve_leads s _ type).adapt _) (.adapt (iht t .member s hb.1) _) ?_
    rintro h t₁ s₁ _ - ⟨hs, hn, hdef⟩
    refine .bind (members_leads s₁ owner label ms) (ihm t₁ s₁ hb.2) ?_
    rintro fields t₂ s₂ _ - ⟨ks, hn', hf⟩
    refine .pure ⟨hs ++ ks, hn.append hn', fun f hmem hi => ?_⟩
    rcases List.mem_cons.mp hmem with rfl | hmem
    · exact List.mem_append_left _ (hdef hi)
    · exact List.mem_append_right _ (hf f hmem hi)
  case spliced =>
    intro owner label kind inner place location ms ihc ihm t s hb
    unfold members
    let spec : ContainerSpec := ⟨none, some inner, place⟩
    have hb : ∀ b ∈ spec.bodies kind .spliced ++ bodiesOfMembers ms, b.TagOutside := hb
    rw [List.forall_mem_append] at hb
    refine .bind (container_leads s kind none spec) (ihc t .spliced s hb.1) ?_
    rintro h t₁ s₁ _ ⟨_, hd⟩ ⟨hs, hn, hdef⟩
    unfold Denotes at hd
    obtain ⟨c, hc, _⟩ := hd
    refine .bind (fieldsOf_leads s₁ h) (fieldsOf_ensures hc) ?_
    rintro spliced t₁ s₁ - - ⟨rfl, rfl⟩
    refine .bind (members_leads s₁ owner label ms) (ihm t₁ s₁ hb.2) ?_
    rintro fields t₂ s₂ _ - ⟨ks, hn', hf⟩
    refine .pure ⟨hs ++ ks, hn.append hn', fun f hmem hi => ?_⟩
    rcases List.mem_append.mp hmem with hmem | hmem
    · -- the spliced fields are inside of a body that this walk wrote
      exact List.mem_append_left _ (hn.inside h (hdef rfl) f.type ⟨kind, c, hc, f, hmem, hi, rfl⟩)
    · exact List.mem_append_right _ (hf f hmem hi)
  case alone =>
    intro owner label type location ms halone iht ihm t s hb
    rw [bodiesOfMembers_alone halone, List.forall_mem_append] at hb
    rw [members_alone halone, bodiesOfMembers_alone halone]
    refine .bind (resolve_leads s _ type) (iht t .nested s hb.1) ?_
    rintro h t₁ s₁ _ - ⟨hs, hn, -⟩
    refine (ihm t₁ s₁ hb.2).weaken ?_
    rintro fields t₂ ⟨ks, hn', hf⟩
    exact ⟨hs ++ ks, hn.append hn', fun f hmem hi => List.mem_append_right _ (hf f hmem hi)⟩

/-! ## Items -/

section
variable {t : Translator} (s : t.Sound)
include s

theorem typedef_acyclic (d : TypedefDecl) (hb : ∀ b ∈ d.type.bodies .target, b.TagOutside)
    (ha : t.graph.Acyclic) : Ensures t (typedef d) fun _ t' => t'.graph.Acyclic := by
  cases hf : t.typedefs.find? d.name with
  | some h => exact .of_run (v := Pure.pure h) (typedef_known d hf) (.pure ha)
  | none =>
    refine (typedef_target s d hf).weaken ?_
    rintro h t' ⟨-, target, t₁, e, hrun, he, -, -, rfl⟩
    have ha₁ : (t.withTypedef d).graph.Acyclic := (step_withTypedef d).nests.acyclic ha
    obtain ⟨hs, hn, -⟩ := walks_enclose.1 _ d.type _ .target (s.withTypedef d) hb target t₁ hrun
    refine (hn.acyclic ha₁).mono ?_
    rintro k l ⟨kind, c, hc, hfield⟩
    by_cases hk : k = h
    · rw [hk, Graph.get?_set_self he] at hc
      cases hc
    · exact ⟨kind, c, (Graph.get?_set_ne _ hk _).symm.trans hc, hfield⟩

theorem item_acyclic (i : Item) (hb : ∀ b ∈ i.bodies, b.TagOutside) (ha : t.graph.Acyclic) :
    Ensures t (item i) fun _ t' => t'.graph.Acyclic := by
  cases i with
  | typedef d =>
    refine .bind (typedef_leads s d) (typedef_acyclic s d hb ha) ?_
    intro x t₁ _ _ _ ha₁ _ _ hrun
    cases hrun
    exact ha₁
  | container kind spec =>
    refine .bind (container_leads s kind none spec)
      (walks_enclose.2.2.2.1 kind none spec t .item s hb) ?_
    rintro x t₁ _ _ _ ⟨hs, hn, -⟩ _ _ hrun
    rw [placeTagged_run] at hrun
    cases hrun
    exact hn.acyclic ha
  | enumeration spec =>
    refine .bind (enumeration_leads s spec none) (enumeration_encloses s .item spec none) ?_
    rintro x t₁ _ _ _ ⟨hs, hn, -⟩ _ _ hrun
    rw [placeTagged_run] at hrun
    cases hrun
    exact hn.acyclic ha
  | declaration d =>
    obtain ⟨_ | name, type, location⟩ := d
    · exact .pure ha
    · by_cases hty : ∃ sig, type = .function sig
      · obtain ⟨sig, rfl⟩ := hty
        unfold item declare
        apply Ensures.get
        split
        · exact .pure ha
        · refine .bind (function_leads s name location sig)
            (walks_enclose.2.1 name location sig t s hb) ?_
          rintro x t₁ _ _ _ ⟨hs, hn, -⟩ _ _ hrun
          cases hrun
          exact hn.acyclic ha
      · have hitem : item (.declaration ⟨some name, type, location⟩) = _ :=
          declare_variable name location fun sig he => hty ⟨sig, he⟩
        rw [hitem]
        refine .bind (resolve_leads s ⟨some name, none, location, .nested⟩ type)
          (walks_enclose.1 _ type t .nested s hb) ?_
        rintro h t₁ _ _ _ ⟨hs, hn, -⟩ _ _ hrun
        cases hrun
        exact (step_add (n := .object ⟨name, h, location⟩) rfl).nests.acyclic (hn.acyclic ha)
  | ignored what => exact .pure ha

theorem items_acyclic (is : List Item) (hb : ∀ b ∈ is.flatMap Item.bodies, b.TagOutside)
    (ha : t.graph.Acyclic) : Ensures t (is.forM item) fun _ t' => t'.graph.Acyclic := by
  induction is generalizing t with
  | nil => exact .pure ha
  | cons i is ih =>
    rw [List.flatMap_cons, List.forall_mem_append] at hb
    refine .bind (item_leads s i) (item_acyclic s i hb.1 ha) ?_
    intro _ t₁ s₁ _ _ ha₁
    exact ih s₁ hb.2 ha₁

end

end Walk

/-- In a unit whose bodies do not define their own tags inside, no container ends up inside
of itself, however often its tag was defined. -/
theorem SourceUnit.TagsOutside.acyclic {u : SourceUnit} (hu : u.TagsOutside) {g : Graph}
    (hg : u.translate = .ok g) : g.Acyclic := by
  obtain ⟨t, ht, rfl⟩ := translate_ok hg
  have hstart : Translator.start.graph.Acyclic :=
    .of_nodes Handle.index fun i => absurd i.2 (Nat.not_lt_zero _)
  exact Walk.items_acyclic .start u.items hu hstart _ t ht

/-- Such a unit is unnested in the end: no container is inside of itself, going into a
container is not deeper than the graph is large, and the loop over the growing module list
comes to its end. -/
theorem SourceUnit.unnesting_ends {u : SourceUnit} {g : Graph} (hg : u.translate = .ok g)
    (hu : u.TagsOutside) :
    g.Acyclic ∧
      (∀ c outer stats, ∃ v, Unnesting.container (g.size + 1) c outer ⟨g, [], stats⟩ = .ok v) ∧
      ∃ s, Unnesting.Sweep.Ends ⟨g, ⟨0, 0⟩, 0⟩ s ∧ g.unnest = .ok (s.graph, s.stats) := by
  have ha := hu.acyclic hg
  have hn := nodup_items hg
  obtain ⟨t, ht, rfl⟩ := translate_ok hg
  have s := (Translator.Sound.start.feed u).1
  rw [ht] at s
  have hi (h : Handle) (hh : h ∈ t.graph.module.items) : h.index < t.graph.size := by
    obtain ⟨n, hn, _⟩ := s.items h hh
    exact Graph.lt_of_get? hn
  exact ⟨ha, Unnesting.container_ends s.closed.inRange ha, ha.sweep_ends s.closed.inRange hi hn⟩

namespace Sample

def taggedInt (tag field : String) : TypeExpr :=
  .container .struct (.body (some tag) [.named field (.word "int")])

/-- `struct A { struct B { int x; } b; }` and then `struct B { struct A { int y; } a; }`:
both tags are defined twice, and the later bodies stay. -/
def crossed : SourceUnit := ⟨"crossed.h", [
  .container .struct (.body (some "A") [.named "b" (taggedInt "B" "x")]),
  .container .struct (.body (some "B") [.named "a" (taggedInt "A" "y")])]⟩

end Sample

theorem SourceUnit.unnesting_ends_crossed : ∃ g, Sample.crossed.translate = .ok g ∧
    Sample.crossed.TagsOutside ∧ g.Acyclic ∧
      (∀ c outer stats, ∃ v, Unnesting.container (g.size + 1) c outer ⟨g, [], stats⟩ = .ok v) ∧
      ∃ s, Unnesting.Sweep.Ends ⟨g, ⟨0, 0⟩, 0⟩ s ∧ g.unnest = .ok (s.graph, s.stats) := by
  have h : ∃ g, g ∈ Sample.crossed.translate.toOption :=
    Option.isSome_iff_exists.mp (by decide +kernel)
  have hu : Sample.crossed.TagsOutside := by decide
  obtain ⟨g, hg⟩ := h
  exact ⟨g, Graph.eq_ok_of_mem_toOption hg, hu, unnesting_ends (Graph.eq_ok_of_mem_toOption hg) hu⟩

end CythonDecls
