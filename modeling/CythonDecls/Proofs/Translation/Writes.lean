import CythonDecls.Proofs.Translation.Ensures

/-!
# Every walk writes its bodies

Each walk over a part of the tree writes the bodies of that part and houses
them: a nested body is hoisted, and the body of a member is an inline field of
the body around it, or of the one around that if the first was spliced.
-/

namespace CythonDecls

namespace Walk

open Translator

/-! ## Where bodies end up -/

/-- A nested body is hoisted under a tag. The body of a member is an inline
field of a body of `ms`, or of one that is not read to its end yet, for which
`inOpen` stands. -/
def HousedAt (t : Translator) (ms : List (Body × Handle)) (inOpen : Handle → Prop)
    (p : Body × Handle) : Prop :=
  match p.1.place with
  | .nested => p.2 ∈ t.hoisted ∧
    ∀ kind c, t.graph.get? p.2 = some (.container kind c) → c.tag.isSome = true
  | .member => (∃ q ∈ ms, q.1.place ≠ .spliced ∧ t.graph.Inline q.2 p.2) ∨ inOpen p.2
  | .spliced => True
  | .item => False
  | .target => False

def Housed (t : Translator) (ms : List (Body × Handle)) (inOpen : Handle → Prop) : Prop :=
  ∀ p ∈ ms, HousedAt t ms inOpen p

/-- The last body is the one of `h`, and the others are inside of it. -/
def Defined (t : Translator) (place : Body.Place) (h : Handle) (ms : List (Body × Handle)) : Prop :=
  ∃ ns b, ms = ns ++ [(b, h)] ∧ b.place = place ∧ Housed t ns (t.graph.Inline h)

section
variable {t t' : Translator} {ms ns : List (Body × Handle)} {P Q : Handle → Prop}

theorem HousedAt.mono {p : Body × Handle} (h : HousedAt t ms P p) (hm : ∀ q ∈ ms, q ∈ ns)
    (hpq : P p.2 →
      (∃ q ∈ ns, q.1.place ≠ .spliced ∧ t.graph.Inline q.2 p.2) ∨ Q p.2) : HousedAt t ns Q p := by
  unfold HousedAt at h ⊢
  split at h
  · exact h
  · rcases h with ⟨q, hq, hi⟩ | hp
    · exact .inl ⟨q, hm q hq, hi⟩
    · exact hpq hp
  all_goals exact h

theorem Housed.nil : Housed t [] P := fun _ hp => nomatch hp

theorem Housed.imp (h : Housed t ms P) (hpq : ∀ k, P k → Q k) : Housed t ms Q :=
  fun p hp => (h p hp).mono (fun _ => id) fun hk => .inr (hpq _ hk)

theorem Housed.append (hm : Housed t ms P) (hn : Housed t ns P) : Housed t (ms ++ ns) P := by
  intro p hp
  rcases List.mem_append.mp hp with hp | hp
  · exact (hm p hp).mono (fun _ => List.mem_append_left _) .inr
  · exact (hn p hp).mono (fun _ => List.mem_append_right _) .inr

theorem Housed.close {b : Body} {h : Handle} (hn : Housed t ns (t.graph.Inline h))
    (hb : b.place ≠ .spliced) (hself : HousedAt t [(b, h)] P (b, h)) :
    Housed t (ns ++ [(b, h)]) P := by
  intro p hp
  rcases List.mem_append.mp hp with hp | hp
  · refine (hn p hp).mono (fun _ => List.mem_append_left _) fun hi => ?_
    exact .inl ⟨(b, h), List.mem_append_right _ (List.mem_singleton_self _), hb, hi⟩
  · rw [List.mem_singleton.mp hp]
    exact hself.mono (fun _ => List.mem_append_right _) .inr

theorem Housed.keep (h : Housed t ms P)
    (hkept : ∀ p ∈ ms, t'.graph.get? p.2 = t.graph.get? p.2)
    (hh : ∀ k ∈ t.hoisted, k ∈ t'.hoisted) : Housed t' ms P := by
  intro p hp
  have hat := h p hp
  unfold HousedAt at hat ⊢
  split at hat
  · exact ⟨hh _ hat.1, fun kind c hc => hat.2 kind c ((hkept p hp).symm.trans hc)⟩
  · refine hat.imp_left fun ⟨q, hq, hs, kind, c, hc, hf⟩ => ⟨q, hq, hs, kind, c, ?_, hf⟩
    exact (hkept q hq).trans hc
  all_goals exact hat

theorem Housed.after {t₀ : Translator} {bs cs : List Body} (h : Housed t ms P) (s : t.Sound)
    (hm : Writing t₀ t bs ms) (hn : Writing t t' cs ns) (hw : t.Within t')
    (hk : ((bs ++ cs).filterMap Body.key?).Nodup) : Housed t' ms P :=
  h.keep (hm.kept s hn hk) hw.hoisted

end

/-! ## Bodies of enums -/

/-- The walk writes bodies, each to its node. -/
def Writes {α : Type} (t : Translator) (w : Walk α) (bs : List Body)
    (Q : α → Translator → List (Body × Handle) → Prop) : Prop :=
  Ensures t w fun a t' => ∃ ms, Writing t t' bs ms ∧ Q a t' ms

theorem enumeration_writes {t : Translator} (s : t.Sound) (place : Body.Place) (spec : EnumSpec)
    (invented : Option String) :
    Writes t (enumeration spec invented) (spec.bodies place) fun h t' ms =>
      (spec.enumerators.isSome → Defined t' place h ms) ∧
        t.Keyed t' (spec.tag.map (none, ·)) h := by
  obtain ⟨tag, es, location⟩ := spec
  unfold enumeration
  refine .bind (enumNode_leads s tag invented location)
    (openNode_ensures s none tag invented location) ?_
  rintro h t₁ s₁ e₁ ⟨_, e, he, htag⟩ ⟨hr, -⟩
  cases es with
  | none => exact .pure ⟨[], .nil hr.step e₁ hr.hoisted, (fun h => nomatch h), hr.keyed⟩
  | some es =>
    refine .bind (enumValues_leads s₁ es) (enumValues_ensures es) ?_
    rintro values t₁ s₁ _ - ⟨rfl, hvalues⟩
    refine .bind (setValues_leads s₁ he values location) (setValues_ensures he values location) ?_
    rintro _ _ _ _ - ⟨e', htag', hvalues', rfl⟩
    have hget := Graph.get?_set_self he (.enumeration e')
    let b : Body := .enumeration place tag es
    have hb : BodyAt t₁.typedefs (t₁.graph.set h (.enumeration e')) h b :=
      ⟨e', hget, fun ht => htag'.trans (htag ht), hvalues' ▸ hvalues⟩
    have hw := (Writing.nil hr.step e₁ hr.hoisted).write he (.enumeration htag')
      (fun h => nomatch h) hb
      (hr.key rfl rfl) hr.untagged
        (fun l hi => absurd hi (Graph.not_inline_enumeration hget)) trivial
    refine .pure ⟨_, hw, fun _ => ⟨[], b, rfl, rfl, .nil⟩, hr.keyed.origin, fun hnone key => ?_⟩
    rw [lookup_withGraph]
    exact hr.keyed.untagged hnone key

/-! ## Types -/

theorem placed_of_defined {t t' : Translator} {ty : TypeExpr} {place : Body.Place} {h : Handle}
    {ms : List (Body × Handle)} (hdef : ty.isDefinition = true → Defined t place h ms)
    (hnone : ty.isDefinition = false → ms = []) (hg : t'.graph = t.graph)
    (hh : ∀ k ∈ t.hoisted, k ∈ t'.hoisted)
    (hself : ty.isDefinition = true → place = .nested → h ∈ t'.hoisted ∧
      ∀ kind c, t'.graph.get? h = some (.container kind c) → c.tag.isSome = true) :
    (ty.isDefinition = true ∧ place ≠ .nested → Defined t' place h ms) ∧
      (¬(ty.isDefinition = true ∧ place ≠ .nested) → Housed t' ms fun _ => False) := by
  have hkeep {ns : List (Body × Handle)} (hn : Housed t ns (t.graph.Inline h)) :
      Housed t' ns (t'.graph.Inline h) := by
    have hkept : Housed t' ns (t.graph.Inline h) := hn.keep (fun _ _ => by rw [hg]) hh
    rwa [← hg] at hkept
  constructor
  · intro hc
    obtain ⟨ns, b, hms, hb, hn⟩ := hdef hc.1
    exact ⟨ns, b, hms, hb, hkeep hn⟩
  · intro hc
    cases hd : ty.isDefinition with
    | false =>
      rw [hnone hd]
      exact .nil
    | true =>
      obtain ⟨ns, b, rfl, rfl, hn⟩ := hdef hd
      have hplace : b.place = .nested := Decidable.not_not.mp fun hne => hc ⟨hd, hne⟩
      refine (hkeep hn).close (by rw [hplace]; decide) ?_
      unfold HousedAt
      rw [hplace]
      exact hself hd hplace

/-- A site names what stands there, unless that has a name of its own. -/
def Named (site : Site) (ty : TypeExpr) : Prop :=
  site.name = none → (∃ kind spec, ty = .container kind spec ∧
    (spec.members.isSome → spec.tag.isSome)) ∨
    ∃ spec, ty = .enumeration spec

/-- What a type writes, at a place that its site is. -/
def TypeWrites (site : Site) (ty : TypeExpr) : Prop :=
  ∀ t place, t.Sound → (place = .nested ↔ site.position = .nested) → Named site ty →
    ((ty.bodies place).filterMap Body.key?).Nodup →
    Writes t (resolve site ty) (ty.bodies place) fun h t' ms =>
      (ty.isAggregate = true → t.Keyed t' ty.key? h) ∧
        (ty.isDefinition = true ∧ place ≠ .nested → Defined t' place h ms) ∧
          (¬(ty.isDefinition = true ∧ place ≠ .nested) → Housed t' ms fun _ => False)

def MembersWrite (owner : Option String) (label : String) (ms : List Member) : Prop :=
  ∀ t, t.Sound → ((bodiesOfMembers ms).filterMap Body.key?).Nodup →
    Writes t (members owner label ms) (bodiesOfMembers ms) fun fields t' ws =>
      List.Forall₂ (FieldIs t.typedefs t'.graph) (resultingFields ms) fields ∧
        List.Forall₂ (Hosted ws) (resultingFields ms) fields ∧
        Housed t' ws fun k => ∃ f ∈ fields, f.inline = true ∧ f.type = k

/-- What a function type writes, all of it housed. -/
def SignatureWrites (name : String) (location : Option Location) (sig : Signature) : Prop :=
  ∀ t, t.Sound → (sig.bodies.filterMap Body.key?).Nodup →
    Writes t (function name location sig) sig.bodies fun _ t' ms => Housed t' ms fun _ => False

def ParamsWrite (name : String) (here : Option Location) (ds : List Declaration) : Prop :=
  ∀ t, t.Sound → ((bodiesOfParams ds).filterMap Body.key?).Nodup →
    Writes t (arguments name here ds) (bodiesOfParams ds) fun _ t' ms => Housed t' ms fun _ => False

/-- What a struct or union writes, its own body last. -/
def ContainerWrites (kind : ContainerKind) (invented : Option String) (spec : ContainerSpec) :
    Prop :=
  ∀ t place, t.Sound → ((spec.bodies kind place).filterMap Body.key?).Nodup →
    Writes t (container kind invented spec) (spec.bodies kind place) fun h t' ws =>
      (spec.members.isSome → Defined t' place h ws) ∧
        (∀ ms, spec.members = some ms →
          BodyAt t.typedefs t'.graph h (.container place kind spec.tag ms)) ∧
        (∀ k c, t'.graph.get? h = some (.container k c) → spec.members.isSome →
          spec.tag.isSome ∨ invented.isSome → c.tag.isSome) ∧
        t.Keyed t' (spec.tag.map (some kind, ·)) h

theorem keys_of_append {bs cs : List Body} (hk : ((bs ++ cs).filterMap Body.key?).Nodup) :
    (bs.filterMap Body.key?).Nodup ∧ (cs.filterMap Body.key?).Nodup := by
  rw [List.filterMap_append, List.nodup_append] at hk
  exact ⟨hk.1, hk.2.1⟩

theorem indirection_writes {site : Site} (d : Indirection) {target : TypeExpr}
    (ih : TypeWrites site.inside target) : TypeWrites site (d.type target) := by
  intro t place s _ hnamed hk
  have hn : Named site.inside target := fun hn => by
    rcases hnamed hn with ⟨_, _, he, _⟩ | ⟨_, he⟩ <;> cases d <;> cases he
  rw [Indirection.bodies_type] at hk ⊢
  rw [resolve_indirection]
  refine .bind (resolve_leads s site.inside target)
    (ih t .nested s ⟨fun _ => rfl, fun _ => rfl⟩ hn hk) ?_
  rintro k t₁ s₁ _ ⟨_, hd⟩ ⟨ms, hms, _, _, hhoused⟩
  refine .last (add_leads s₁ (by simpa using hd.lt)) (add_ensures (d.hasBody_node k)) ?_
  rintro h t₂ s₂ e₂ _ ⟨hstep, hh, _⟩
  have hhoused := (hhoused (by simp)).keep (hms.kept_step hstep) (hh ▸ fun _ => id)
  exact ⟨ms, hms.then_step e₂ hstep (hh ▸ fun _ => .inl), by simp, by simp, fun _ => hhoused⟩

theorem hoistIf_writes {t t₂ : Translator} (s : t₂.Sound) {site : Site} (ty : TypeExpr)
    {place : Body.Place} {h : Handle} {ms : List (Body × Handle)}
    (hplace : place = .nested ↔ site.position = .nested) (hty : ty.isAggregate = true)
    (hd : Denotes t₂.typedefs t₂.graph ty h) (hms : Writing t t₂ (ty.bodies place) ms)
    (hdef : ty.isDefinition = true → Defined t₂ place h ms) (hkeyed : t.Keyed t₂ ty.key? h)
    (htagged : ty.isDefinition = true → site.position = .nested →
      ∀ kind c, t₂.graph.get? h = some (.container kind c) → c.tag.isSome = true) :
    Ensures t₂ (do
      if ty.isDefinition = true ∧ site.position = .nested then hoist h
      return h) fun h t' => ∃ ms, Writing t t' (ty.bodies place) ms ∧
        (ty.isAggregate = true → t.Keyed t' ty.key? h) ∧
          (ty.isDefinition = true ∧ place ≠ .nested → Defined t' place h ms) ∧
            (¬(ty.isDefinition = true ∧ place ≠ .nested) → Housed t' ms fun _ => False) := by
  refine .last (hoistIf_leads s ty hd)
    (hoistIf_ensures (ty.isDefinition = true ∧ site.position = .nested) h) ?_
  rintro h t₃ _ e ⟨hw, _⟩ ⟨rfl, hstep, hg, hhoisted, hnew⟩
  refine ⟨ms, hms.then_step e hstep fun k hk => (hnew k hk).imp_right ?_,
    fun _ => hkeyed.keep hstep hd.lt, ?_⟩
  · rintro ⟨⟨hc, hp⟩, rfl⟩
    obtain ⟨ns, b, rfl, hb, _⟩ := hdef hc
    exact ⟨b, hb.trans (hplace.mpr hp), List.mem_append_right _ (List.mem_singleton_self _)⟩
  · refine placed_of_defined hdef (fun hc => ?_) hg hw.hoisted fun hc hp => ?_
    · exact List.map_eq_nil_iff.mp (hms.bodies.trans (TypeExpr.bodies_of_reference hty hc place))
    · refine ⟨hhoisted ⟨hc, hplace.mp hp⟩, fun kind c hn => ?_⟩
      exact htagged hc (hplace.mp hp) kind c (hg ▸ hn)

theorem container_writes {site : Site} {kind : ContainerKind} {spec : ContainerSpec}
    (ih : ∀ invented, ContainerWrites kind invented spec) :
    TypeWrites site (.container kind spec) := by
  intro t place s hplace hnamed hk
  unfold resolve
  refine .bind (inventTag_leads s _ site) (inventTag_ensures _ site) ?_
  rintro invented t₁ s₁ e₁ hw ⟨⟨hstep, hh⟩, hinvented⟩
  refine .bind (container_leads s₁ kind invented spec) (ih invented t₁ place s₁ hk) ?_
  rintro h t₂ s₂ e₂ ⟨hw₂, hd⟩ ⟨ms, hms, hdef, _, htagged, hkeyed⟩
  refine hoistIf_writes s₂ (.container kind spec) hplace rfl (hw₂.typedefs ▸ hd)
    (hms.after_step s₁ e₂ hstep e₁ hh hk) hdef (hkeyed.after hstep) fun hc hp k c hn => ?_
  refine htagged k c hn hc ?_
  -- a site without a name has only definitions with a tag
  cases htag : spec.tag with
  | some _ => exact .inl rfl
  | none =>
    refine .inr (hinvented (by rw [htag]; exact (Bool.and_true _).trans hc) hp ?_)
    cases hname : site.name with
    | some _ => rfl
    | none =>
      rcases hnamed hname with ⟨_, _, he, ht⟩ | ⟨_, he⟩
      · cases he
        rw [htag] at ht
        exact absurd (ht hc) Bool.false_ne_true
      · cases he

theorem enumType_writes (site : Site) (spec : EnumSpec) : TypeWrites site (.enumeration spec) := by
  intro t place s hplace _ hk
  unfold resolve
  refine .bind (inventTag_leads s _ site) (inventTag_ensures _ site) ?_
  rintro invented t₁ s₁ e₁ _ ⟨⟨hstep, hh⟩, _⟩
  refine .bind (enumeration_leads s₁ spec invented) (enumeration_writes s₁ place spec invented) ?_
  rintro h t₂ s₂ e₂ ⟨_, hd⟩ ⟨ms, hms, hdef, hkeyed⟩
  refine hoistIf_writes s₂ (.enumeration spec) hplace rfl hd
    (hms.after_step s₁ e₂ hstep e₁ hh hk) hdef (hkeyed.after hstep) fun _ _ kind c hn => ?_
  unfold Denotes at hd
  obtain ⟨e, he, _⟩ := hd
  rw [he] at hn
  cases hn

/-! ## Bodies of structs and unions -/

/-- The members come first, and their fields are set in a node that none of them has. -/
theorem body_writes {kind : ContainerKind} {invented tag : Option String} {ms : List Member}
    {location : Option Location} (ih : ∀ owner label, MembersWrite owner label ms) :
    ContainerWrites kind invented ⟨tag, some ms, location⟩ := by
  intro t place s hk
  let b : Body := .container place kind tag ms
  have hk : ((bodiesOfMembers ms ++ [b]).filterMap Body.key?).Nodup := hk
  rw [List.filterMap_append, List.nodup_append] at hk
  unfold container
  refine .bind (containerNode_leads s kind tag invented location)
    (openNode_ensures s (some kind) tag invented location) ?_
  rintro h t₁ s₁ e₁ ⟨hw, c, hn, htag⟩ ⟨hr, hinvented⟩
  refine .of_run (run_named hn _) ?_
  refine .bind (members_leads s₁ _ _ ms) (ih _ _ t₁ s₁ hk.1) ?_
  rintro fields t₂ s₂ e₂ ⟨hw₂, hlt⟩ ⟨ws, hws, hfields, hin, hhoused⟩
  obtain ⟨c₂, hn₂, htag₂⟩ := e₂.graph.container hn
  refine .of_run (run_bind_of_ok (setFields_run hn₂ fields location) _) (.pure ?_)
  let c₃ : Container := { c₂ with fields, location := location <|> c₂.location }
  have hget := Graph.get?_set_self hn₂ (.container kind c₃)
  have hnew : h ∉ ws.map Prod.snd := by
    refine hr.not_mem s₁ hn htag hws.origin_mem fun b' hb' key hkey hb => ?_
    exact hk.2.2 key (List.mem_filterMap.mpr ⟨b', hb', hkey⟩) key
      (List.mem_filterMap.mpr ⟨b, List.mem_singleton_self b, hb⟩) rfl
  have hbody : BodyAt t.typedefs (t₂.graph.set h (.container kind c₃)) h b := by
    have hbecomes : Node.Becomes (.container kind c₂) (.container kind c₃) := .container kind rfl
    have hgrow := Graph.grows_set hn₂ hbecomes
    refine ⟨c₃, hget, fun ht => htag₂.trans (htag ht), ?_⟩
    exact hfields.imp fun _ _ hf => ⟨hf.name, hf.inline, hw.typedefs ▸ hf.type.grow hgrow⟩
  have huntagged : tag = none → ∀ key, t₂.lookup key ≠ some h := fun ht key hlook => by
    rcases hws.step.tags key h hlook with hlook | hlt
    · exact hr.untagged ht key hlook
    · exact absurd (Graph.lt_of_get? hn) (Nat.not_lt.mpr hlt)
  refine ⟨ws ++ [(b, h)], ?_, fun _ => ⟨ws, b, rfl, rfl, ?_⟩, ?_, ?_, hr.keyed.origin, ?_⟩
  · refine (hws.after_step s₁ e₂ hr.step e₁ hr.hoisted hk.1).write hn₂ (.container kind rfl) hnew
      ((hw₂.typedefs.trans hw.typedefs) ▸ hbody) (hr.key rfl rfl) huntagged ?_ ⟨kind, _, hget, hin⟩
    rintro l ⟨_, _, hc, f, hf, hi, rfl⟩
    rw [hget] at hc
    cases hc
    obtain ⟨_, _, _, _, hmem⟩ := exists_of_hosted hfields hin hf hi
    exact List.mem_map_of_mem hmem
  · refine (hhoused.imp ?_).keep ?_ fun _ hh => hh
    · rintro l ⟨f, hf, hi⟩
      exact ⟨kind, c₃, hget, f, hf, hi⟩
    · intro p hp
      exact Graph.get?_set_ne _ (fun he => hnew (List.mem_map.mpr ⟨p, hp, he⟩)) _
  · rintro _ ⟨⟩
    exact hbody
  · intro k c' hc _ hor
    rw [hget] at hc
    cases hc
    show c₂.tag.isSome = true
    cases htagn : tag with
    | some name =>
      rw [htag₂, htag (by rw [htagn]; rfl), htagn]
      rfl
    | none =>
      rw [htag₂, show c.tag = invented from hinvented _ hn htagn]
      exact hor.resolve_left (by rw [htagn]; exact Bool.false_ne_true)
  · intro hnone key
    rw [lookup_withGraph]
    exact huntagged (Option.map_eq_none_iff.mp hnone) key

/-! ## Functions -/

theorem signature_writes {name : String} {location : Option Location} {returns : TypeExpr}
    {params : List Declaration} (variadic : Bool)
    (ihr : TypeWrites ⟨some name, none, location, .nested⟩ returns)
    (iha : ParamsWrite name location params) :
    SignatureWrites name location ⟨returns, params, variadic⟩ := by
  intro t s hk
  obtain ⟨hkr, hka⟩ := keys_of_append hk
  unfold function
  refine .bind (resolve_leads s _ returns) (ihr t .nested s ⟨fun _ => rfl, fun _ => rfl⟩
    (fun hn => by cases hn) hkr) ?_
  rintro r t₁ s₁ _ ⟨_, hr⟩ ⟨ms, hms, _, _, hhoused⟩
  refine .bind (arguments_leads s₁ name location params) (iha t₁ s₁ hka) ?_
  rintro args t₂ s₂ e₂ ⟨hw₂, ha⟩ ⟨ns, hns, hhoused'⟩
  have hhoused := ((hhoused (by simp)).after s₁ hms hns hw₂ hk).append hhoused'
  have hms := hms.append s₁ e₂ hns hk
  refine .last (add_leads s₂ (children_lt_of_denotes (hr.grow e₂.graph) ha)) (add_ensures rfl) ?_
  rintro h t₃ s₃ e₃ _ ⟨hstep, hh, _⟩
  exact ⟨_, hms.then_step e₃ hstep (hh ▸ fun _ => .inl),
    hhoused.keep (hms.kept_step hstep) (hh ▸ fun _ => id)⟩

theorem argument_writes {name : String} {here : Option Location} {argument : Option String}
    {type : TypeExpr} {location : Option Location} {ds : List Declaration}
    (iht : TypeWrites ⟨argument <|> some name, argument.map fun _ => name, location <|> here,
      .nested⟩ type) (ihd : ParamsWrite name here ds) :
    ParamsWrite name here (⟨argument, type, location⟩ :: ds) := by
  intro t s hk
  obtain ⟨hkt, hkd⟩ := keys_of_append hk
  unfold arguments
  have hn : (argument <|> some name) ≠ none := by cases argument <;> simp
  refine .bind (resolve_leads s _ type) (iht t .nested s ⟨fun _ => rfl, fun _ => rfl⟩
    (fun hnone => absurd hnone hn) hkt) ?_
  rintro h t₁ s₁ _ _ ⟨ms, hms, _, _, hhoused⟩
  refine .bind (arguments_leads s₁ name here ds) (ihd t₁ s₁ hkd) ?_
  rintro args t₂ s₂ e₂ ⟨hw₂, _⟩ ⟨ns, hns, hhoused'⟩
  exact .pure ⟨_, hms.append s₁ e₂ hns hk,
    ((hhoused (by simp)).after s₁ hms hns hw₂ hk).append hhoused'⟩

/-! ## Members -/

section
variable {owner : Option String} {label : String} {location : Option Location} {ms : List Member}

theorem last_of_bodies {ns : List (Body × Handle)} {bs : List Body} {b b' : Body} {h : Handle}
    (he : (ns ++ [(b', h)]).map Prod.fst = bs ++ [b]) : b' = b := by
  rw [List.map_append] at he
  exact List.singleton_inj.mp (List.append_inj' he rfl).2

theorem named_writes {name : String} {type : TypeExpr}
    (iht : TypeWrites ⟨some name, owner, location, .member⟩ type)
    (ihm : MembersWrite owner label ms) :
    MembersWrite owner label (.declaration ⟨some name, type, location⟩ :: ms) := by
  intro t s hk
  obtain ⟨hkt, hkm⟩ := keys_of_append hk
  unfold members
  refine .bind ((resolve_leads s _ type).adapt _)
    (.adapt (iht t .member s ⟨by rintro ⟨⟩, by rintro ⟨⟩⟩ (by rintro ⟨⟩) hkt) _) ?_
  rintro h t₁ s₁ _ ⟨hw, hd⟩ ⟨vs, hvs, _, hdef, hhoused⟩
  refine .bind (members_leads s₁ owner label ms) (ihm t₁ s₁ hkm) ?_
  rintro fields t₂ s₂ e₂ ⟨hw₂, _⟩ ⟨ws, hws, hfields, hin, hhoused'⟩
  let field : Field := ⟨name, h, .readWrite, type.isDefinition⟩
  have hfield : FieldIs t.typedefs t₂.graph (name, type) field := ⟨rfl, rfl, hd.grow e₂.graph⟩
  have hvs' : Housed t₁ vs fun k => ∃ f ∈ field :: fields, f.inline = true ∧ f.type = k := by
    cases hc : type.isDefinition with
    | false => exact (hhoused (by simp [hc])).imp fun _ => False.elim
    | true =>
      obtain ⟨ns, b, rfl, hb, hn⟩ := hdef ⟨hc, by decide⟩
      refine hn.close (by rw [hb]; decide) ?_
      unfold HousedAt
      rw [hb]
      exact .inr ⟨field, List.mem_cons_self, hc, rfl⟩
  have hhost : Hosted vs (name, type) field := by
    intro b hb
    obtain ⟨ns, b', rfl, _⟩ := hdef ⟨TypeExpr.isDefinition_iff.mpr ⟨b, hb⟩, by decide⟩
    obtain ⟨bs, hbs⟩ := TypeExpr.bodies_of_body? hb
    obtain rfl := last_of_bodies (hvs.bodies.trans hbs)
    exact List.mem_append_right _ (List.mem_singleton_self _)
  refine .pure ⟨vs ++ ws, hvs.append s₁ e₂ hws hk, .cons hfield (hw.typedefs ▸ hfields),
    .cons (hhost.mono fun _ => List.mem_append_left _) (hin.imp fun _ _ hf => ?_),
    (hvs'.after s₁ hvs hws hw₂ hk).append (hhoused'.imp ?_)⟩
  · exact hf.mono fun _ => List.mem_append_right _
  · rintro k ⟨f, hf, hi⟩
    exact ⟨f, List.mem_cons_of_mem _ hf, hi⟩

theorem spliced_writes {kind : ContainerKind} {inner : List Member} {place : Option Location}
    (ihc : ContainerWrites kind none ⟨none, some inner, place⟩)
    (ihm : MembersWrite owner label ms) :
    MembersWrite owner label
      (.declaration ⟨none, .container kind ⟨none, some inner, place⟩, location⟩ :: ms) := by
  intro t s hk
  let spec : ContainerSpec := ⟨none, some inner, place⟩
  have hk : ((spec.bodies kind .spliced ++ bodiesOfMembers ms).filterMap Body.key?).Nodup := hk
  obtain ⟨hkc, hkm⟩ := keys_of_append hk
  unfold members
  refine .bind (container_leads s kind none spec) (ihc t .spliced s hkc) ?_
  rintro h t₁ s₁ _ ⟨hw, _⟩ ⟨vs, hvs, hdef, hbody, _⟩
  obtain ⟨ns, b, rfl, hb, hn⟩ := hdef rfl
  obtain ⟨c, hc, _, hc'⟩ := hbody inner rfl
  refine .bind (fieldsOf_leads s₁ h) (fieldsOf_ensures hc) ?_
  rintro spliced t₁ s₁ - - ⟨rfl, rfl⟩
  refine .bind (members_leads s₁ owner label ms) (ihm t₁ s₁ hkm) ?_
  rintro fields t₂ s₂ e₂ ⟨hw₂, _⟩ ⟨ws, hws, hfields, hin, hhoused'⟩
  have hspliced : List.Forall₂ (FieldIs t.typedefs t₂.graph) (resultingFields inner) c.fields :=
    hc'.imp fun _ _ hf => ⟨hf.name, hf.inline, hf.type.grow e₂.graph⟩
  have hhosts : List.Forall₂ (Hosted (ns ++ [(b, h)])) (resultingFields inner) c.fields := by
    obtain rfl : b = .container .spliced kind none inner := last_of_bodies hvs.bodies
    obtain ⟨_, _, hc'', hf⟩ := hvs.hosts _ (List.mem_append_right _ (List.mem_singleton_self _))
    rw [hc] at hc''
    cases hc''
    exact hf
  have hhoused : Housed t₁ (ns ++ [(b, h)])
      fun k => ∃ f ∈ c.fields ++ fields, f.inline = true ∧ f.type = k := by
    refine Housed.append (hn.imp ?_) ?_
    · rintro k ⟨_, _, hc', f, hf, hi⟩
      rw [hc] at hc'
      cases hc'
      exact ⟨f, List.mem_append_left fields hf, hi⟩
    · intro p hp
      rw [List.mem_singleton.mp hp]
      unfold HousedAt
      rw [hb]
      trivial
  refine .pure ⟨_, hvs.append s₁ e₂ hws hk, List.rel_append hspliced (hw.typedefs ▸ hfields),
    List.rel_append (hhosts.imp fun _ _ hf => ?_) (hin.imp fun _ _ hf => ?_),
    (hhoused.after s₁ hvs hws hw₂ hk).append (hhoused'.imp ?_)⟩
  · exact hf.mono fun _ => List.mem_append_left _
  · exact hf.mono fun _ => List.mem_append_right _
  · rintro k ⟨f, hf, hi⟩
    exact ⟨f, List.mem_append_right _ hf, hi⟩

theorem alone_writes {type : TypeExpr} (halone : type.Alone)
    (iht : TypeWrites ⟨none, none, location, .nested⟩ type) (ihm : MembersWrite owner label ms) :
    MembersWrite owner label (.declaration ⟨none, type, location⟩ :: ms) := by
  intro t s hk
  rw [bodiesOfMembers_alone halone] at hk ⊢
  rw [members_alone halone, resultingFields_alone halone]
  obtain ⟨hkt, hkm⟩ := keys_of_append hk
  have hnamed : Named ⟨none, none, location, .nested⟩ type := by
    intro _
    cases halone with
    | @container kind spec h =>
      refine .inl ⟨kind, spec, rfl, fun hms => ?_⟩
      obtain ⟨_ | tag, _ | inner, place⟩ := spec
      · cases hms
      · exact absurd rfl (h _ _)
      · rfl
      · rfl
    | enumeration spec => exact .inr ⟨spec, rfl⟩
  refine .bind (resolve_leads s _ type) (iht t .nested s ⟨fun _ => rfl, fun _ => rfl⟩ hnamed hkt) ?_
  rintro h t₁ s₁ _ ⟨hw, _⟩ ⟨vs, hvs, _, _, hhoused⟩
  refine .last (members_leads s₁ owner label ms) (ihm t₁ s₁ hkm) ?_
  rintro fields t₂ s₂ e₂ ⟨hw₂, _⟩ ⟨ws, hws, hfields, hin, hhoused'⟩
  refine ⟨vs ++ ws, hvs.append s₁ e₂ hws hk, hw.typedefs ▸ hfields, ?_, ?_⟩
  · exact hin.imp fun _ _ hf => hf.mono fun _ => List.mem_append_right _
  · exact (((hhoused (by simp)).imp fun _ => False.elim).after s₁ hvs hws hw₂ hk).append hhoused'

end

/-- Where no tag is defined twice, every walk writes its bodies and houses them. -/
theorem walks_write :
    (∀ site ty, TypeWrites site ty) ∧
    (∀ name location sig, SignatureWrites name location sig) ∧
    (∀ name here ds, ParamsWrite name here ds) ∧
    (∀ kind invented spec, ContainerWrites kind invented spec) ∧
    (∀ owner label ms, MembersWrite owner label ms) := by
  refine induct ?derived ?word ?container ?enumeration ?function ?reference ?body ?signature
    ?noArgument ?argument ?noMember ?passed ?named ?spliced ?alone
  case derived => exact fun site d target => indirection_writes d
  case word =>
    intro site words t place s _ _ _
    unfold resolve
    refine .last (identifier_leads s words site.location)
      (identifier_ensures words site.location) ?_
    rintro h t₁ _ e₁ _ ⟨hstep, hh⟩
    exact ⟨[], .nil hstep e₁ hh, fun hc => Bool.noConfusion hc, fun hc => Bool.noConfusion hc.1,
      fun _ => .nil⟩
  case container => exact fun site kind spec => container_writes
  case enumeration => exact enumType_writes
  case function =>
    intro site sig ih t place s _ _ hk
    unfold resolve
    refine (ih t s hk).weaken ?_
    rintro h t₁ ⟨ms, hms, hhoused⟩
    exact ⟨ms, hms, fun hc => Bool.noConfusion hc, fun hc => Bool.noConfusion hc.1,
      fun _ => hhoused⟩
  case reference =>
    intro kind invented tag location t place s hk
    unfold container
    refine .last (containerNode_leads s kind tag invented location)
      (openNode_ensures s (some kind) tag invented location) ?_
    rintro h t₁ _ e₁ _ ⟨hr, _⟩
    exact ⟨[], .nil hr.step e₁ hr.hoisted, by rintro ⟨⟩, by rintro _ ⟨⟩, by rintro _ _ _ ⟨⟩,
      hr.keyed⟩
  case body => exact fun kind invented tag ms location => body_writes
  case signature => exact fun name location returns params => signature_writes
  case noArgument =>
    intro name here t s _
    unfold arguments
    exact .pure ⟨[], .nil (.refl t) (.refl t) rfl, .nil⟩
  case argument => exact fun name here argument type location ds => argument_writes
  case noMember =>
    intro owner label t s _
    unfold members
    exact .pure ⟨[], .nil (.refl t) (.refl t) rfl, .nil, .nil, .nil⟩
  case passed =>
    intro owner label m ms hm ih t s hk
    rw [bodiesOfMembers_passed hm] at hk ⊢
    rw [members_passed hm, resultingFields_passed hm]
    exact ih t s hk
  case named => exact fun owner label name type location ms => named_writes
  case spliced => exact fun owner label kind inner place location ms => spliced_writes
  case alone => exact fun owner label type location ms => alone_writes

end Walk

end CythonDecls
