import CythonDecls.Proofs.Translation.TypedefChains
import CythonDecls.Proofs.Translation.Untagged

/-!
# What a unit leaves without a tag

A typedef of an aggregate without a tag is the only one that declares it: the
aggregate is no item by itself.
-/

namespace CythonDecls

namespace Translator

/-- Between items the graph is tidy, and no item is a typedef's target without a tag. -/
structure Tidied (E : Prop) (t : Translator) : Prop where
  tidy : t.graph.Tidy E
  hoisted : t.hoisted = []
  targets : ∀ h k, t.graph.Target h k → t.graph.Untagged k → k ∉ t.graph.module.items

section
variable {E : Prop} {t t₁ : Translator} {h k : Handle}

theorem Tidied.start (E : Prop) : start.Tidied E where
  tidy := .empty E
  hoisted := rfl
  targets _ _ _ _ := List.not_mem_nil

theorem Tidied.apart (a : t.Tidied E) (s : t.Sound) (e : t.graph.Grows t₁.graph) (hk : t.Keeps t₁)
    (ht : t₁.graph.Target h k) (hu : t₁.graph.Untagged k) :
    k.index < t.graph.size ∧ k ∉ t₁.hoisted ∧ k ∉ t.graph.module.items := by
  obtain ⟨d, hd, htarget⟩ := ht
  have hd := hk.typedefs h d hd
  have hlt : k.index < t.graph.size :=
    s.closed.inRange h _ hd k (by simp [Node.children, htarget])
  have hold := hu.of_grows e hlt
  refine ⟨hlt, fun hh => ?_, a.targets h k ⟨d, hd, htarget⟩ hold⟩
  have := hk.hoisted k hold hh
  simp [a.hoisted] at this

theorem Tidied.place {x : Handle} {base : Module} (ht : t₁.graph.Tidy E)
    (hb : base.items ⊆ t₁.graph.module.items)
    (hall : ∀ h k, t₁.graph.Target h k → t₁.graph.Untagged k →
      k ∉ t₁.hoisted ∧ k ∉ t₁.graph.module.items ∧ k ≠ x) :
    (Walk.placedState t₁ x base).Tidied E where
  tidy := ⟨ht.made, ht.fields⟩
  hoisted := rfl
  targets h k hk hu hmem := by
    obtain ⟨hh, hm, hx⟩ := hall h k hk hu
    rcases Module.mem_push.mp hmem with hmem | hmem
    · rcases Module.mem_pushAll.mp hmem with hmem | hmem
      · exact hm (hb hmem)
      · exact hh (List.mem_filter.mp hmem).1
    · exact hx hmem

section
variable (a : t.Tidied E) (s : t.Sound) (e : t.graph.Grows t₁.graph) (h₁ : t.Settles E t₁)
  (hm : t₁.graph.module = t.graph.module)
include a s e h₁ hm

theorem Tidied.placeNew {x : Handle} {base : Module} (hb : base.items ⊆ t₁.graph.module.items)
    (hx : t₁.graph.Untagged x → t.graph.size ≤ x.index) :
    (Walk.placedState t₁ x base).Tidied E := by
  refine .place h₁.tidy hb fun h k hk hu => ?_
  obtain ⟨hlt, hh, hitems⟩ := a.apart s e h₁.keeps hk hu
  refine ⟨hh, hm ▸ hitems, ?_⟩
  rintro rfl
  exact absurd (hx hu) (Nat.not_le.mpr hlt)

theorem Tidied.placeTypedef (s₁ : t₁.Sound) {x target : Handle} {f : Typedef}
    (hn : t₁.graph.get? x = some (.typedef f)) (hnone : f.target = none)
    (hnew : t₁.graph.Untagged target → t.graph.size ≤ target.index ∧ target ∉ t₁.hoisted) :
    (Walk.placedState
      { t₁ with graph := t₁.graph.set x (.typedef { f with target := some target }) } x
      t₁.graph.module).Tidied E := by
  have hb : (Node.typedef f).Becomes (.typedef { f with target := some target }) :=
    .typedef rfl hnone
  have hno : ¬t₁.graph.Untagged x := Graph.not_untagged hn rfl
  refine .place (h₁.tidy.set s₁.closed.inRange hn hb (fun _ ht => nomatch ht)
    (fun hu => absurd hu hno) nofun) (fun _ => id) fun j k hk hu => ?_
  have hu₁ : t₁.graph.Untagged k := by
    refine hu.of_grows (Graph.grows_set hn hb) ?_
    simpa using hu.lt_size
  have hne : k ≠ x := by
    rintro rfl
    exact hno hu₁
  obtain ⟨l, hl, htarget⟩ := hk
  by_cases hj : j = x
  · -- the new target is not met before
    rw [hj, Graph.get?_set_self hn] at hl
    cases hl
    cases htarget
    obtain ⟨hge, hfree⟩ := hnew hu₁
    refine ⟨hfree, fun hmem => ?_, hne⟩
    obtain ⟨m, hm, _⟩ := s.items target (hm ▸ hmem)
    exact absurd hge (Nat.not_le.mpr (Graph.lt_of_get? hm))
  · rw [Graph.get?_set_ne t₁.graph hj] at hl
    obtain ⟨_, hh, hitems⟩ := a.apart s e h₁.keeps ⟨l, hl, htarget⟩ hu₁
    exact ⟨hh, hm ▸ hitems, hne⟩

end

end

end Translator

namespace Walk

open Translator

section
variable {E : Prop} {t : Translator} (a : t.Tidied E) (s : t.Sound)
include a s

theorem withTypedef_tidied (d : TypedefDecl) : (t.withTypedef d).Tidied E where
  tidy := a.tidy.add s.closed.inRange (n := .typedef ⟨d.name, none, d.location⟩) nofun rfl
  hoisted := a.hoisted
  targets h k hk hu := by
    obtain ⟨f, hf, htarget⟩ := hk
    rw [graph_withTypedef, Graph.get?_add] at hf
    split at hf
    · cases hf
      cases htarget
    · have hlt : k.index < t.graph.size :=
        s.closed.inRange h _ hf k (by simp [Node.children, htarget])
      exact a.targets h k ⟨f, hf, htarget⟩ (hu.of_grows (Graph.grows_add t.graph _) hlt)

theorem typedef_tidies (d : TypedefDecl) (hid : d.type.identified = true)
    (hE : ∀ b ∈ d.type.bodies .target, b.Blank → E) :
    Ensures t (item (.typedef d)) fun _ t' => t'.Tidied E := by
  cases hf : t.typedefs.find? d.name with
  | some h =>
    have hknown : Ensures t (typedef d) fun k t' => k = h ∧ t' = t :=
      .of_run (v := Pure.pure h) (typedef_known d hf) (.pure ⟨rfl, rfl⟩)
    refine .bind (typedef_leads s d) hknown ?_
    rintro k t₁ _ e - ⟨rfl, rfl⟩ _ _ hrun
    cases hrun
    obtain ⟨n, hn, _⟩ := s.typedefs d.name k hf
    exact a.placeNew s e.graph (.refl a.tidy) rfl (fun _ => id)
      fun hu => absurd hu (Graph.not_untagged hn rfl)
  | none =>
    refine .bind (typedef_leads s d) (typedef_target s d hf) ?_
    rintro h t₂ _ _ - ⟨rfl, target, t₁, f, hr, hn, _, hnone, rfl⟩ _ _ hrun
    cases hrun
    have a₀ := withTypedef_tidied a s d
    have s₀ := s.withTypedef d
    let site : Site := ⟨some d.name, none, d.location, .typedefTarget⟩
    obtain ⟨s₁, e, hw, _⟩ := (resolve_leads s₀ site d.type).ok hr
    obtain ⟨h₁, hstays⟩ := walks_settle.1 site d.type _ .target s₀ a₀.tidy hid nofun nofun hE
      target t₁ hr
    exact a₀.placeTypedef s₀ e.graph h₁ hw.module s₁ hn hnone fun hu =>
      ⟨(hstays hu).new, (hstays hu).free nofun⟩

theorem placeTagged_tidies {t₁ : Translator} {x : Handle} (e : t.graph.Grows t₁.graph)
    (h₁ : t.Settles E t₁) (hm : t₁.graph.module = t.graph.module)
    (hx : t₁.graph.Untagged x → t.graph.size ≤ x.index) (defines : Bool) :
    Ensures t₁ (placeTagged x defines) fun _ t' => t'.Tidied E := by
  intro _ _ hrun
  rw [placeTagged_run] at hrun
  cases hrun
  refine a.placeNew s e h₁ hm ?_ hx
  split
  · exact fun _ => Module.mem_of_mem_remove
  · exact fun _ => id

theorem declaration_tidies (name : String) (location : Option Location) (type : TypeExpr)
    (hid : type.identified = true) (hE : ∀ b ∈ type.bodies .nested, b.Blank → E) :
    Ensures t (item (.declaration ⟨some name, type, location⟩)) fun _ t' => t'.Tidied E := by
  by_cases hty : ∃ sig, type = .function sig
  · obtain ⟨sig, rfl⟩ := hty
    unfold item declare
    apply Ensures.get
    split
    · exact .pure a
    · refine .bind (function_leads s name location sig)
        (walks_settle.2.1 name location sig t s a.tidy hid hE) ?_
      rintro h t₁ _ e ⟨hw, f, hn, _⟩ h₁ _ _ hrun
      cases hrun
      let t₂ : Translator := { t₁ with functions := t₁.functions.insert name h }
      have e₂ : t.graph.Grows t₂.graph := e.graph
      have h₂ : t.Settles E t₂ := h₁.trans (.same h₁.tidy rfl rfl)
      exact a.placeNew s e₂ h₂ hw.module (fun _ => id)
        fun hu => absurd hu (Graph.not_untagged hn rfl)
  · have hitem : item (.declaration ⟨some name, type, location⟩) = _ :=
      declare_variable name location fun sig he => hty ⟨sig, he⟩
    rw [hitem]
    refine .bind (resolve_leads s ⟨some name, none, location, .nested⟩ type)
      (walks_settle.1 _ type t .nested s a.tidy hid (by rintro ⟨⟩) (by rintro ⟨⟩) hE) ?_
    rintro h t₁ s₁ e ⟨hw, hd⟩ ⟨h₁, hstays⟩
    have hno : ¬t₁.graph.Untagged h := by
      intro hu
      cases (hstays hu).nameless rfl
    intro _ _ hrun
    cases hrun
    have h₂ : t.Settles E { t₁ with graph := t₁.graph.add (.object ⟨name, h, location⟩) } :=
      h₁.trans (.add h₁.tidy s₁ (by simpa [Node.children] using ⟨hd.lt, hno⟩) rfl rfl rfl)
    exact a.placeNew s (e.graph.trans (Graph.grows_add _ _)) h₂ hw.module (fun _ => id)
      fun hu => absurd hu (Graph.not_untagged (Graph.get?_add_next _ _) rfl)

theorem item_tidies (i : Item) (hid : i.identified = true) (hE : ∀ b ∈ i.bodies, b.Blank → E) :
    Ensures t (item i) fun _ t' => t'.Tidied E := by
  cases i with
  | typedef d => exact typedef_tidies a s d hid hE
  | container kind spec =>
    unfold item
    have hin : ∀ ms, spec.members = some ms → identifiedMembers ms = true ∧
        ∀ b ∈ bodiesOfMembers ms, b.Blank → E := by
      obtain ⟨tag, members, location⟩ := spec
      rintro ms rfl
      exact ⟨hid, fun b hb => hE b (List.mem_append_left _ hb)⟩
    refine .bind (container_leads s kind none spec)
      (walks_settle.2.2.2.1 kind none spec t s a.tidy hin) ?_
    rintro h t₁ _ e ⟨hw, _⟩ ⟨h₁, hbare, _⟩
    exact placeTagged_tidies a s e.graph h₁ hw.module (fun hu => (hbare hu).new) _
  | enumeration spec =>
    unfold item
    refine .bind (enumeration_leads s spec none) (enumeration_settles s a.tidy spec none) ?_
    rintro h t₁ _ e ⟨hw, _⟩ ⟨h₁, hbare, _⟩
    exact placeTagged_tidies a s e.graph h₁ hw.module (fun hu => (hbare hu).new) _
  | declaration d =>
    obtain ⟨_ | name, type, location⟩ := d
    · exact .pure a
    · exact declaration_tidies a s name location type hid hE
  | ignored what => exact .pure a

end

theorem items_tidy {E : Prop} (is : List Item) {t : Translator} (a : t.Tidied E) (s : t.Sound)
    (hid : ∀ i ∈ is, i.identified = true) (hE : ∀ i ∈ is, ∀ b ∈ i.bodies, b.Blank → E) :
    Ensures t (is.forM item) fun _ t' => t'.Tidied E := by
  induction is generalizing t with
  | nil => exact .pure a
  | cons i is ih =>
    refine .bind (item_leads s i)
      (item_tidies a s i (hid i List.mem_cons_self) (hE i List.mem_cons_self)) ?_
    intro _ t₁ s₁ _ _ a₁
    exact ih a₁ s₁ (fun j hj => hid j (List.mem_cons_of_mem i hj))
      fun j hj => hE j (List.mem_cons_of_mem i hj)

end Walk

/-- Where every mention has a tag or a body, what has no tag in the end is the target of a
typedef that declares it, or the type of fields that define it. -/
theorem SourceUnit.tidied {u : SourceUnit} {g : Graph} (hg : u.translate = .ok g)
    (hid : u.identified = true) : g.Tidy (∃ b ∈ u.bodies, b.Blank) ∧
      ∀ h k, g.Target h k → g.Untagged k → k ∉ g.module.items := by
  obtain ⟨t, ht, rfl⟩ := translate_ok hg
  have a : t.Tidied (∃ b ∈ u.bodies, b.Blank) :=
    Walk.items_tidy u.items (.start _) .start (List.all_eq_true.mp hid)
      (fun i hi b hb hblank => ⟨b, List.mem_flatMap.mpr ⟨i, hi, hb⟩, hblank⟩) _ t ht
  exact ⟨a.tidy, a.targets⟩

end CythonDecls
