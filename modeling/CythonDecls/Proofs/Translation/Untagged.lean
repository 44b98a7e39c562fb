import CythonDecls.Proofs.Translation.ItemWalks
import CythonDecls.Proofs.Translation.References

/-!
# Aggregates without a tag

A definition without a tag gets one where it is hoisted. The others are reached
from one place only: as the type of the member or the target of the typedef
that they are written in. So no pointer, array, function or variable is made of
an aggregate without a tag, and a field that has one as its type defines it.
-/

namespace CythonDecls

namespace Graph

def Untagged (g : Graph) (h : Handle) : Prop :=
  ∃ n, g.get? h = some n ∧ n.isAggregate = true ∧ n.tag? = none

/-- A field of a type without a tag defines it, with a body unless `E` holds. -/
def Introduces (g : Graph) (E : Prop) (f : Field) : Prop :=
  g.Untagged f.type → f.inline = true ∧ (g.HasBody f.type ∨ E)

/-- No pointer, array, function or variable is made of an aggregate without a tag. -/
def TaggedParts (g : Graph) : Prop :=
  ∀ h n, g.get? h = some n → n.container? = none → n.typedef? = none →
    ∀ k ∈ n.children, ¬g.Untagged k

/-- Aggregates without a tag are only types of fields that introduce them, or targets of
typedefs. -/
structure Tidy (g : Graph) (E : Prop) : Prop where
  made : g.TaggedParts
  fields : ∀ h kind c, g.get? h = some (.container kind c) → ∀ f ∈ c.fields, g.Introduces E f

section
variable {g g' : Graph} {E : Prop} {h k : Handle} {m n : Node}

theorem Tidy.empty (E : Prop) : Graph.empty.Tidy E where
  made _ _ hn := by cases hn
  fields _ _ _ hn := by cases hn

theorem Untagged.lt_size (hu : g.Untagged h) : h.index < g.size := by
  obtain ⟨n, hn, _⟩ := hu
  exact lt_of_get? hn

theorem not_untagged (hn : g.get? h = some n) (ha : n.isAggregate = false) : ¬g.Untagged h := by
  rintro ⟨m, hm, hagg, _⟩
  rw [hn] at hm
  cases hm
  rw [ha] at hagg
  cases hagg

theorem not_untagged_of_tag {tag : String} (hn : g.get? h = some n) (ht : n.tag? = some tag) :
    ¬g.Untagged h := by
  rintro ⟨m, hm, _, hnone⟩
  rw [hn] at hm
  cases hm
  rw [ht] at hnone
  cases hnone

theorem Untagged.of_grows (hg : g.Grows g') (hk : k.index < g.size) (hu : g'.Untagged k) :
    g.Untagged k := by
  obtain ⟨n, hn⟩ := get?_of_lt hk
  obtain ⟨n', hn', ha, ht⟩ := hu
  obtain ⟨m, hm, hb⟩ := hg k n hn
  rw [hn'] at hm
  cases hm
  exact ⟨n, hn, hb.isAggregate ▸ ha, by rw [Node.tag?_eq, ← hb.key?, ← Node.tag?_eq, ht]⟩

theorem Tidy.grow (ht : g.Tidy E) (hg : g.Grows g') (hr : g.InRange)
    (hbody : ∀ k, g.Untagged k → g.HasBody k → g'.HasBody k)
    (hmade : ∀ h n, g'.get? h = some n → n.container? = none → n.typedef? = none →
      g.get? h = some n ∨ ∀ k ∈ n.children, ¬g'.Untagged k)
    (hfields : ∀ h kind c, g'.get? h = some (.container kind c) →
      g.get? h = some (.container kind c) ∨ ∀ f ∈ c.fields, g'.Introduces E f) : g'.Tidy E where
  made h n hn hc htd k hk hu := by
    rcases hmade h n hn hc htd with hn | hnew
    · exact ht.made h n hn hc htd k hk (hu.of_grows hg (hr h n hn k hk))
    · exact hnew k hk hu
  fields h kind c hn f hf hu := by
    rcases hfields h kind c hn with hn | hnew
    · have hold := hu.of_grows hg (hr h _ hn _ (List.mem_map_of_mem hf))
      exact (ht.fields h kind c hn f hf hold).imp_right (.imp_left (hbody _ hold))
    · exact hnew f hf hu

theorem Tidy.add (ht : g.Tidy E) (hr : g.InRange)
    (hc : ∀ k ∈ n.children, k.index < g.size ∧ ¬g.Untagged k)
    (hnodes : g'.nodes = (g.add n).nodes) : g'.Tidy E := by
  have hget (h : Handle) : g'.get? h = if h = g.next then some n else g.get? h := by
    rw [← get?_add]
    simp only [get?, hnodes]
  have hold {h : Handle} {m : Node} (hm : g.get? h = some m) : g'.get? h = some m := by
    have hm' := get?_add_of_some hm n
    simpa only [get?, hnodes] using hm'
  have hg : g.Grows g' := fun h m hm => ⟨m, hold hm, .refl m⟩
  have hchild (k : Handle) (hk : k ∈ n.children) : ¬g'.Untagged k :=
    fun hu => (hc k hk).2 (hu.of_grows hg (hc k hk).1)
  refine ht.grow hg hr ?_ ?_ ?_
  · rintro k _ ⟨m, hm, hb⟩
    exact ⟨m, hold hm, hb⟩
  · intro h m hm _ _
    rw [hget] at hm
    split at hm
    · cases hm
      exact .inr hchild
    · exact .inl hm
  · intro h kind c hc
    rw [hget] at hc
    split at hc
    · cases hc
      exact .inr fun f hf hu => absurd hu (hchild _ (List.mem_map_of_mem hf))
    · exact .inl hc

theorem Tidy.set (ht : g.Tidy E) (hr : g.InRange) (hm : g.get? h = some m) (hb : m.Becomes n)
    (hp : n.container? = none → n.typedef? = none → n.children = [])
    (hnew : g.Untagged h → m.hasBody = false)
    (hf : ∀ c, n.container? = some c → ∀ f ∈ c.fields, f.type.index < g.size ∧
      g.Introduces E f) : (g.set h n).Tidy E := by
  have hg : g.Grows (g.set h n) := grows_set hm hb
  have hbody (k : Handle) (hu : g.Untagged k) (hk : g.HasBody k) : (g.set h n).HasBody k := by
    have hne : k ≠ h := by
      rintro rfl
      rw [hk.of_get? hm] at hnew
      exact absurd (hnew hu) Bool.noConfusion
    obtain ⟨l, hl, hb⟩ := hk
    exact ⟨l, by rw [get?_set_ne g hne, hl], hb⟩
  refine ht.grow hg hr hbody ?_ ?_
  · intro k l hl hc htd
    by_cases hk : k = h
    · subst hk
      rw [get?_set_self hm] at hl
      cases hl
      exact .inr fun j hj => absurd (hp hc htd ▸ hj) List.not_mem_nil
    · exact .inl ((get?_set_ne g hk n).symm.trans hl)
  · intro k kind c hc
    by_cases hk : k = h
    · subst hk
      rw [get?_set_self hm] at hc
      cases hc
      refine .inr fun f hfield hu => ?_
      obtain ⟨hlt, hfit⟩ := hf c rfl f hfield
      have hold := hu.of_grows hg hlt
      exact (hfit hold).imp_right (.imp_left (hbody _ hold))
    · exact .inl ((get?_set_ne g hk n).symm.trans hc)

end

end Graph

namespace Translator

/-- Aggregates without a tag are left alone, and so are typedefs. -/
structure Keeps (t t' : Translator) : Prop where
  untagged : ∀ h n, t.graph.get? h = some n → n.isAggregate = true → n.tag? = none →
    t'.graph.get? h = some n
  hoisted : ∀ h, t.graph.Untagged h → h ∈ t'.hoisted → h ∈ t.hoisted
  typedefs : ∀ h d, t'.graph.get? h = some (.typedef d) → t.graph.get? h = some (.typedef d)

structure Settles (E : Prop) (t t' : Translator) : Prop where
  tidy : t'.graph.Tidy E
  keeps : t.Keeps t'

section
variable {E : Prop} {t t₁ t₂ t' : Translator} {h : Handle} {m n : Node}

theorem Keeps.refl (t : Translator) : t.Keeps t where
  untagged _ _ hn _ _ := hn
  hoisted _ _ := id
  typedefs _ _ := id

theorem Keeps.still (hk : t.Keeps t') (hu : t.graph.Untagged h) : t'.graph.Untagged h := by
  obtain ⟨n, hn, ha, ht⟩ := hu
  exact ⟨n, hk.untagged h n hn ha ht, ha, ht⟩

theorem Keeps.hasBody (hk : t.Keeps t') (hu : t.graph.Untagged h) (hb : t.graph.HasBody h) :
    t'.graph.HasBody h := by
  obtain ⟨n, hn, ha, ht⟩ := hu
  exact ⟨n, hk.untagged h n hn ha ht, hb.of_get? hn⟩

theorem Keeps.introduces (hk : t.Keeps t') (e : t.Extends t') {f : Field}
    (hf : f.type.index < t.graph.size) (hi : t.graph.Introduces E f) :
    t'.graph.Introduces E f := by
  intro hu
  have hold := hu.of_grows e.graph hf
  exact (hi hold).imp_right (.imp_left (hk.hasBody hold))

theorem Keeps.trans (h₁ : t.Keeps t₁) (h₂ : t₁.Keeps t₂) : t.Keeps t₂ where
  untagged h n hn ha ht := h₂.untagged h n (h₁.untagged h n hn ha ht) ha ht
  hoisted h hu hh := h₁.hoisted h hu (h₂.hoisted h (h₁.still hu) hh)
  typedefs h d hd := h₁.typedefs h d (h₂.typedefs h d hd)

theorem Settles.trans (h₁ : t.Settles E t₁) (h₂ : t₁.Settles E t₂) : t.Settles E t₂ :=
  ⟨h₂.tidy, h₁.keeps.trans h₂.keeps⟩

theorem Settles.refl (ht : t.graph.Tidy E) : t.Settles E t := ⟨ht, .refl t⟩

theorem Settles.same (ht : t.graph.Tidy E) (hg : t'.graph = t.graph)
    (hh : t'.hoisted = t.hoisted) : t.Settles E t' where
  tidy := hg ▸ ht
  keeps := ⟨fun _ _ hn _ _ => hg ▸ hn, fun _ _ => hh ▸ id, fun _ _ => hg ▸ id⟩

theorem Settles.add (ht : t.graph.Tidy E) (s : t.Sound)
    (hc : ∀ k ∈ n.children, k.index < t.graph.size ∧ ¬t.graph.Untagged k)
    (hn : n.typedef? = none) (hnodes : t'.graph.nodes = (t.graph.add n).nodes)
    (hh : t'.hoisted = t.hoisted) : t.Settles E t' where
  tidy := ht.add s.closed.inRange hc hnodes
  keeps := by
    have hget (h : Handle) : t'.graph.get? h = (t.graph.add n).get? h := by
      simp only [Graph.get?, hnodes]
    refine ⟨fun h m hm _ _ => ?_, fun _ _ => hh ▸ id, fun h d hd => ?_⟩
    · rw [hget]
      exact Graph.get?_add_of_some hm n
    · rw [hget, Graph.get?_add] at hd
      split at hd
      · cases hd
        cases hn
      · exact hd

theorem Settles.set (ht : t.Settles E t₁) (s : t₁.Sound) (hm : t₁.graph.get? h = some m)
    (hb : m.Becomes n) (ha : m.isAggregate = true)
    (hnew : t₁.graph.Untagged h → t.graph.size ≤ h.index ∧ ¬t₁.graph.HasBody h)
    (hf : ∀ c, n.container? = some c → ∀ f ∈ c.fields, f.type.index < t₁.graph.size ∧
      t₁.graph.Introduces E f) :
    t.Settles E { t₁ with graph := t₁.graph.set h n } where
  tidy := by
    refine ht.tidy.set s.closed.inRange hm hb ?_ (fun hu => ?_) hf
    · intro hc _
      cases n with
      | enumeration e => rfl
      | container kind c => cases hc
      | _ => rw [← hb.isAggregate] at ha; cases ha
    · exact Bool.eq_false_iff.mpr fun hbody => (hnew hu).2 ⟨m, hm, hbody⟩
  keeps := by
    constructor
    case untagged =>
      intro k l hl hagg htag
      have hl₁ := ht.keeps.untagged k l hl hagg htag
      have hne : k ≠ h := by
        rintro rfl
        exact absurd (Graph.lt_of_get? hl) (Nat.not_lt.mpr (hnew ⟨l, hl₁, hagg, htag⟩).1)
      exact (Graph.get?_set_ne t₁.graph hne n).trans hl₁
    case hoisted => exact ht.keeps.hoisted
    case typedefs =>
      intro k d hd
      by_cases hk : k = h
      · rw [hk, Graph.get?_set_self hm] at hd
        cases hd
        rw [← hb.isAggregate] at ha
        cases ha
      · exact ht.keeps.typedefs k d ((Graph.get?_set_ne t₁.graph hk n).symm.trans hd)

end

/-! ## Steps -/

/-- The node `h` without a tag is new, and is nowhere yet. -/
structure Bare (t t' : Translator) (tag invented : Option String) (h : Handle) : Prop where
  tag : tag = none
  invented : invented = none
  new : t.graph.size ≤ h.index
  free : h ∉ t'.hoisted

section
variable {E : Prop} {t t' : Translator} {h : Handle}

theorem Reads.settles {words : List String} (r : t.Reads words h t') (s : t.Sound)
    (ht : t.graph.Tidy E) : t.Settles E t' := by
  cases r with
  | typedef => exact .refl ht
  | known => exact .refl ht
  | new =>
    exact .add ht s (n := .fundamental (.ofKey (Specifier.canonicalKey words)))
      (fun _ hk => by cases hk) rfl rfl rfl

section
variable {sort : Option ContainerKind} {location : Option Location} {tag invented : Option String}

theorem Opens.settles (o : t.Opens sort location tag invented h t') (s : t.Sound)
    (ht : t.graph.Tidy E) : t.Settles E t' := by
  cases o with
  | untagged => exact .add ht s (n := .blank sort invented location) (by simp) (by simp) rfl rfl
  | known => exact .refl ht
  | @entered _ tag =>
    exact .add ht s (n := .blank sort (some tag) location) (by simp) (by simp) (by simp) (by simp)

theorem Opens.bare (o : t.Opens sort location tag invented h t') (s : t.Sound)
    (hu : t'.graph.Untagged h) : Bare t t' tag invented h ∧ ¬t'.graph.HasBody h := by
  cases o with
  | untagged =>
    obtain ⟨n, hn, -, hnone⟩ := hu
    rw [Graph.get?_add_next] at hn
    cases hn
    refine ⟨⟨rfl, by simpa using hnone, Nat.le_refl _, fun hmem => ?_⟩, ?_⟩
    · obtain ⟨n, hn, -⟩ := s.hoisted _ hmem
      rw [Graph.get?_next] at hn
      cases hn
    · rintro ⟨n, hn, hbody⟩
      rw [Graph.get?_add_next] at hn
      cases hn
      simp at hbody
  | @known _ tag _ hk =>
    obtain ⟨n, hn, hkey⟩ := s.lookup hk
    exact absurd hu (Graph.not_untagged_of_tag hn (by rw [Node.tag?_eq, hkey]; rfl))
  | entered =>
    rw [graph_enter] at hu
    exact absurd hu (Graph.not_untagged_of_tag (Graph.get?_add_next ..) (Node.tag?_blank ..))

end

end

end Translator

namespace Walk

open Translator

section
variable {E : Prop} {t : Translator} (s : t.Sound) (ht : t.graph.Tidy E)
include s ht

theorem add_settles {n : Node} (hn : n.typedef? = none)
    (hc : ∀ k ∈ n.children, k.index < t.graph.size ∧ ¬t.graph.Untagged k) :
    Ensures t (add n) fun _ t' => t.Settles E t' := by
  intro h t' hrun
  cases hrun
  exact .add ht s hc hn rfl rfl

omit s in
theorem inventTag_settles (isAnonymous : Bool) (site : Site) :
    Ensures t (inventTag isAnonymous site) fun invented t' => t.Settles E t' ∧
      t'.graph = t.graph ∧
      (isAnonymous = true → site.position = .nested → site.name.isSome → invented.isSome) :=
  .of_gives (inventTag_gives isAnonymous site) fun _ _ i =>
    ⟨.same ht i.graph i.hoisted, i.graph, i.isSome⟩

theorem identifier_settles (words : List String) (location : Option Location) :
    Ensures t (identifier words location) fun _ t' => t.Settles E t' := by
  obtain hg | ⟨-, hrun⟩ := identifier_cases (t := t) words location
  · exact .of_gives hg fun _ _ r => r.settles s ht
  · exact .of_error hrun

theorem openNode_settles (sort : Option ContainerKind) (tag invented : Option String)
    (location : Option Location) :
    Ensures t (openNode sort tag invented location) fun h t' => t.Settles E t' ∧
      (t'.graph.Untagged h → Bare t t' tag invented h ∧ ¬t'.graph.HasBody h) :=
  .of_gives (openNode_gives sort tag invented location) fun _ _ o => ⟨o.settles s ht, o.bare s⟩

theorem enumeration_settles (spec : EnumSpec) (invented : Option String) :
    Ensures t (enumeration spec invented) fun h t' => t.Settles E t' ∧
      (t'.graph.Untagged h → Bare t t' spec.tag invented h) ∧
      ∀ es, spec.enumerators = some es → es ≠ [] → t'.graph.HasBody h := by
  obtain ⟨tag, es, location⟩ := spec
  unfold enumeration
  refine .bind (enumNode_leads s tag invented location)
    (openNode_settles s ht none tag invented location) ?_
  rintro h t₁ s₁ _ ⟨_, e, he, _⟩ ⟨h₁, hbare⟩
  cases es with
  | none => exact .pure ⟨h₁, fun hu => (hbare hu).1, nofun⟩
  | some es =>
    refine .bind (enumValues_leads s₁ es) (enumValues_ensures es) ?_
    rintro values t₁ s₁ _ - ⟨rfl, hvalues⟩
    refine .bind (setValues_leads s₁ he values location) (setValues_ensures he values location) ?_
    rintro _ _ _ _ - ⟨e', htag', rfl, rfl⟩
    have hb : (Node.enumeration e).Becomes (.enumeration e') := .enumeration htag'
    refine .pure ⟨h₁.set s₁ he hb rfl (fun hu => ⟨(hbare hu).1.new, (hbare hu).2⟩) nofun, ?_, ?_⟩
    · intro hu
      have hb := (hbare (hu.of_grows (Graph.grows_set he hb) (Graph.lt_of_get? he))).1
      exact ⟨hb.tag, hb.invented, hb.new, hb.free⟩
    · rintro _ ⟨⟩ hne
      refine ⟨_, Graph.get?_set_self he _, ?_⟩
      have hvals : e'.values ≠ [] := fun hnil => hne (by simpa [hnil] using hvalues.symm)
      simpa [Node.hasBody, Node.isAggregate, Node.isOpaque] using hvals

end

/-! ## Types -/

/-- A type without a tag is new. It stands at a site that has no name to make up a tag from, or
stays where it is defined, and a member that has it has its body as well, or else `E` holds. -/
structure Stays (E : Prop) (t t' : Translator) (site : Site) (defines : Bool) (h : Handle) :
    Prop where
  new : t.graph.size ≤ h.index
  defines : defines = true
  nameless : site.position = .nested → site.name = none
  free : site.position ≠ .nested → h ∉ t'.hoisted
  body : site.position = .member → t'.graph.HasBody h ∨ E

theorem hoistIf_settles {E : Prop} {t t₁ t₂ : Translator} {site : Site} {h : Handle}
    {tag invented : Option String} {defines : Bool} (h₁ : t.Settles E t₁)
    (hg : t₁.graph = t.graph) (h₂ : t₁.Settles E t₂)
    (hinvented : (defines && tag.isNone) = true → site.position = .nested → site.name.isSome →
      invented.isSome)
    (hbare : t₂.graph.Untagged h → Bare t₁ t₂ tag invented h)
    (hid : tag.isSome = true ∨ defines = true)
    (hbody : site.position = .member → tag = none → t₂.graph.HasBody h ∨ E) :
    Ensures t₂ (do
      if defines = true ∧ site.position = .nested then hoist h
      return h) fun k t₃ =>
        t.Settles E t₃ ∧ (t₃.graph.Untagged k → Stays E t t₃ site defines k) := by
  refine (hoistIf_ensures (defines = true ∧ site.position = .nested) h).weaken ?_
  rintro k t₃ ⟨rfl, _, hg₃, _, hnew⟩
  have h₁₂ := h₁.trans h₂
  have hsize : t₁.graph.size = t.graph.size := congrArg Graph.size hg
  refine ⟨⟨hg₃ ▸ h₁₂.tidy, ?_⟩, fun hu => ?_⟩
  · refine ⟨fun j n hn ha ht => hg₃ ▸ h₁₂.keeps.untagged j n hn ha ht, fun j hu hj => ?_,
      fun j d hd => h₁₂.keeps.typedefs j d (hg₃ ▸ hd)⟩
    rcases hnew j hj with hj | ⟨_, rfl⟩
    · exact h₁₂.keeps.hoisted j hu hj
    · have hge := (hbare (h₁₂.keeps.still hu)).new
      have hlt := hu.lt_size
      omega
  · rw [hg₃] at hu
    have hb := hbare hu
    have hdefines : defines = true := hid.resolve_left (by simp [hb.tag])
    refine ⟨hsize ▸ hb.new, hdefines, fun hp => ?_, fun hp hj => ?_, fun hp => ?_⟩
    · by_contra hname
      have := hinvented (by simp [hdefines, hb.tag]) hp (Option.isSome_iff_ne_none.mpr hname)
      simp [hb.invented] at this
    · exact (hnew _ hj).elim hb.free fun hc => hp hc.1.2
    · rw [hg₃]
      exact hbody hp hb.tag

theorem not_untagged_of_denotes {g : Graph} {typedefs : Table String Handle} {ty : TypeExpr}
    {h : Handle} (hd : Denotes typedefs g ty h) (hty : ty.isAggregate = false) : ¬g.Untagged h := by
  obtain ⟨n, hn, hf⟩ := hd.fits
  refine Graph.not_untagged hn ?_
  cases ty <;> cases n <;> simp_all [TypeExpr.fits, TypeExpr.isAggregate, Node.isAggregate]

/-- What a type settles, at a place that its site is. -/
def TypeSettles (E : Prop) (site : Site) (ty : TypeExpr) : Prop :=
  ∀ t place, t.Sound → t.graph.Tidy E → ty.identified = true →
    (site.name = none → ty.isAggregate = true) → (site.position = .member → place = .member) →
    (∀ b ∈ ty.bodies place, b.Blank → E) →
    Ensures t (resolve site ty) fun h t' =>
      t.Settles E t' ∧ (t'.graph.Untagged h → Stays E t t' site ty.isDefinition h)

def MembersSettle (E : Prop) (owner : Option String) (label : String) (ms : List Member) : Prop :=
  ∀ t, t.Sound → t.graph.Tidy E → identifiedMembers ms = true →
    (∀ b ∈ bodiesOfMembers ms, b.Blank → E) →
    Ensures t (members owner label ms) fun fields t' => t.Settles E t' ∧
      (∀ f ∈ fields, t'.graph.Introduces E f) ∧ (resultingFields ms ≠ [] → fields ≠ [])

def SignatureSettles (E : Prop) (name : String) (location : Option Location)
    (sig : Signature) : Prop :=
  ∀ t, t.Sound → t.graph.Tidy E → sig.identified = true → (∀ b ∈ sig.bodies, b.Blank → E) →
    Ensures t (function name location sig) fun _ t' => t.Settles E t'

def ParamsSettle (E : Prop) (name : String) (here : Option Location) (ds : List Declaration) :
    Prop :=
  ∀ t, t.Sound → t.graph.Tidy E → identifiedParams ds = true →
    (∀ b ∈ bodiesOfParams ds, b.Blank → E) →
    Ensures t (arguments name here ds) fun args t' =>
      t.Settles E t' ∧ ∀ a ∈ args, ¬t'.graph.Untagged a.type

def ContainerSettles (E : Prop) (kind : ContainerKind) (invented : Option String)
    (spec : ContainerSpec) : Prop :=
  ∀ t, t.Sound → t.graph.Tidy E →
    (∀ ms, spec.members = some ms → identifiedMembers ms = true ∧
      ∀ b ∈ bodiesOfMembers ms, b.Blank → E) →
    Ensures t (container kind invented spec) fun h t' => t.Settles E t' ∧
      (t'.graph.Untagged h → Bare t t' spec.tag invented h) ∧
      ∀ ms, spec.members = some ms → resultingFields ms ≠ [] → t'.graph.HasBody h

section
variable {E : Prop} {t : Translator} (s : t.Sound) (ht : t.graph.Tidy E)
include s ht

theorem indirection_settles {site : Site} (d : Indirection) {target : TypeExpr}
    (ih : TypeSettles E site.inside target) (hid : target.identified = true)
    (hname : site.name ≠ none) (hE : ∀ b ∈ target.bodies .nested, b.Blank → E) :
    Ensures t (resolve site (d.type target)) fun h t' =>
      t.Settles E t' ∧ (t'.graph.Untagged h → Stays E t t' site false h) := by
  rw [resolve_indirection]
  refine .bind (resolve_leads s site.inside target)
    (ih t .nested s ht hid (fun hn => absurd hn hname) (by rintro ⟨⟩) hE) ?_
  rintro k t₁ s₁ _ ⟨_, hd⟩ ⟨h₁, hstays⟩
  have hk : ¬t₁.graph.Untagged k := fun hu => hname ((hstays hu).nameless rfl)
  have hall : ∀ j ∈ (d.node k).children, j.index < t₁.graph.size ∧ ¬t₁.graph.Untagged j := by
    simpa using ⟨hd.lt, hk⟩
  refine .last (add_leads s₁ fun j hj => (hall j hj).1)
    (add_settles s₁ h₁.tidy (d.typedef?_node k) hall) ?_
  rintro h t₂ _ _ ⟨hn, _⟩ h₂
  exact ⟨h₁.trans h₂, fun hu => absurd hu (Graph.not_untagged hn (d.isAggregate_node k))⟩

theorem body_settles (kind : ContainerKind) (tag invented : Option String)
    (location : Option Location) {ms : List Member}
    (ih : ∀ owner label, MembersSettle E owner label ms) (hid : identifiedMembers ms = true)
    (hE : ∀ b ∈ bodiesOfMembers ms, b.Blank → E) :
    Ensures t (container kind invented ⟨tag, some ms, location⟩) fun h t' => t.Settles E t' ∧
      (t'.graph.Untagged h → Bare t t' tag invented h) ∧
      (resultingFields ms ≠ [] → t'.graph.HasBody h) := by
  unfold container
  refine .bind (containerNode_leads s kind tag invented location)
    (openNode_settles s ht (some kind) tag invented location) ?_
  rintro h t₁ s₁ _ ⟨_, c, hn, _⟩ ⟨h₁, hbare⟩
  refine .of_run (run_named hn _) ?_
  refine .bind (members_leads s₁ _ _ ms) (ih _ _ t₁ s₁ h₁.tidy hid hE) ?_
  rintro fields t₂ s₂ e₂ ⟨_, hlt⟩ ⟨h₂, hfields, hne⟩
  obtain ⟨c₂, hn₂, _⟩ := e₂.graph.container hn
  have hold (hu : t₂.graph.Untagged h) : t₁.graph.Untagged h :=
    hu.of_grows e₂.graph (Graph.lt_of_get? hn)
  have hfree (hu : t₂.graph.Untagged h) : h ∉ t₂.hoisted := fun hh =>
    (hbare (hold hu)).1.free (h₂.keeps.hoisted h (hold hu) hh)
  let c₃ : Container := { c₂ with fields, location := location <|> c₂.location }
  have hb : Node.Becomes (.container kind c₂) (.container kind c₃) := .container kind rfl
  refine .of_run (run_bind_of_ok (setFields_run hn₂ fields location) _) (.pure ?_)
  refine ⟨(h₁.trans h₂).set s₂ hn₂ hb rfl (fun hu => ?_) ?_, fun hu => ?_, fun hms => ?_⟩
  · -- what has no tag has not changed since it was made, without a body
    refine ⟨(hbare (hold hu)).1.new, fun hbody => (hbare (hold hu)).2 ?_⟩
    obtain ⟨n, hn', ha, htag⟩ := hold hu
    exact ⟨n, hn', hbody.of_get? (h₂.keeps.untagged h n hn' ha htag)⟩
  · rintro _ ⟨⟩ f hf
    exact ⟨hlt f hf, hfields f hf⟩
  · have hu₂ := hu.of_grows (Graph.grows_set hn₂ hb) (Graph.lt_of_get? hn₂)
    have hb := (hbare (hold hu₂)).1
    exact ⟨hb.tag, hb.invented, hb.new, hfree hu₂⟩
  · refine ⟨_, Graph.get?_set_self hn₂ _, ?_⟩
    simpa [Node.hasBody, Node.isAggregate, Node.isOpaque, c₃] using hne hms

theorem signature_settles (name : String) (location : Option Location) (variadic : Bool)
    {returns : TypeExpr} {params : List Declaration}
    (ihr : TypeSettles E ⟨some name, none, location, .nested⟩ returns)
    (iha : ParamsSettle E name location params) (hr : returns.identified = true)
    (hp : identifiedParams params = true)
    (hE : ∀ b ∈ returns.bodies .nested ++ bodiesOfParams params, b.Blank → E) :
    Ensures t (function name location ⟨returns, params, variadic⟩) fun _ t' =>
      t.Settles E t' := by
  unfold function
  refine .bind (resolve_leads s _ returns) (ihr t .nested s ht hr (by rintro ⟨⟩) (by rintro ⟨⟩)
    fun b hb => hE b (List.mem_append_left _ hb)) ?_
  rintro r t₁ s₁ _ ⟨_, hd⟩ ⟨h₁, hstays⟩
  refine .bind (arguments_leads s₁ name location params)
    (iha t₁ s₁ h₁.tidy hp fun b hb => hE b (List.mem_append_right _ hb)) ?_
  rintro args t₂ s₂ e₂ ⟨_, ha⟩ ⟨h₂, hargs⟩
  have hc : ∀ k ∈ (Node.function ⟨name, r, args, variadic, location⟩).children,
      k.index < t₂.graph.size ∧ ¬t₂.graph.Untagged k := by
    intro k hk
    rcases List.mem_cons.mp hk with rfl | hk
    · refine ⟨e₂.graph.lt hd.lt, fun hu => ?_⟩
      cases (hstays (hu.of_grows e₂.graph hd.lt)).nameless rfl
    · obtain ⟨a, hmem, rfl⟩ := List.mem_map.mp hk
      exact ⟨ha.lt a hmem, hargs a hmem⟩
  refine .last (add_leads s₂ fun k hk => (hc k hk).1) (add_settles s₂ h₂.tidy rfl hc) ?_
  intro _ _ _ _ _ h₃
  exact (h₁.trans h₂).trans h₃

theorem spliced_settles {owner : Option String} {label : String} {kind : ContainerKind}
    {inner ms : List Member} {place : Option Location}
    (ihc : ContainerSettles E kind none ⟨none, some inner, place⟩)
    (ihm : MembersSettle E owner label ms) (hin : identifiedMembers inner = true)
    (hms : identifiedMembers ms = true) {location : Option Location}
    (hE : ∀ b ∈ bodiesOfMembers
      (.declaration ⟨none, .container kind ⟨none, some inner, place⟩, location⟩ :: ms),
      b.Blank → E) :
    Ensures t (do
        let h ← container kind none ⟨none, some inner, place⟩
        let spliced ← fieldsOf h
        let fields ← members owner label ms
        return spliced ++ fields) fun fields t' => t.Settles E t' ∧
      (∀ f ∈ fields, t'.graph.Introduces E f) ∧
      (resultingFields
        (.declaration ⟨none, .container kind ⟨none, some inner, place⟩, location⟩ :: ms) ≠ [] →
        fields ≠ []) := by
  refine .bind (container_leads s kind none _) (ihc t s ht ?_) ?_
  · rintro _ ⟨⟩
    exact ⟨hin, fun b hb => hE b (List.mem_append_left _ (List.mem_append_left _ hb))⟩
  rintro h t₁ s₁ _ ⟨_, hd⟩ ⟨h₁, _, hbody⟩
  unfold Denotes at hd
  obtain ⟨c, hc, _⟩ := hd
  refine .bind (fieldsOf_leads s₁ h) (fieldsOf_ensures hc) ?_
  rintro spliced t₁ s₁ - ⟨-, hlt⟩ ⟨rfl, rfl⟩
  refine .bind (members_leads s₁ owner label ms)
    (ihm t₁ s₁ h₁.tidy hms fun b hb => hE b (List.mem_append_right _ hb)) ?_
  rintro fields t₂ _ e₂ _ ⟨h₂, hfields, hne⟩
  refine .pure ⟨h₁.trans h₂, fun f hf => ?_, fun hres hnil => ?_⟩
  · rcases List.mem_append.mp hf with hf | hf
    · exact h₂.keeps.introduces e₂ (hlt f hf) (h₁.tidy.fields h kind c hc f hf)
    · exact hfields f hf
  · obtain ⟨hcnil, hfnil⟩ := List.append_eq_nil_iff.mp hnil
    by_cases hinner : resultingFields inner = []
    · refine hne (fun hms => hres ?_) hfnil
      simp [resultingFields, TypeExpr.splicedFields, ContainerSpec.splicedFields, hinner, hms]
    · have hb := (hbody inner rfl hinner).of_get? hc
      simp [Node.hasBody, Node.isOpaque, hcnil] at hb

theorem alone_settles {owner : Option String} {label : String} {location : Option Location}
    {type : TypeExpr} {ms : List Member} (halone : type.Alone)
    (iht : TypeSettles E ⟨none, none, location, .nested⟩ type)
      (ihm : MembersSettle E owner label ms)
    (hid : type.identified = true ∧ identifiedMembers ms = true)
    (hE : ∀ b ∈ type.bodies .nested ++ bodiesOfMembers ms, b.Blank → E) :
    Ensures t (do
        let _ ← resolve ⟨none, none, location, .nested⟩ type
        members owner label ms) fun fields t' => t.Settles E t' ∧
      (∀ f ∈ fields, t'.graph.Introduces E f) ∧ (resultingFields ms ≠ [] → fields ≠ []) := by
  refine .bind (resolve_leads s _ type) (iht t .nested s ht hid.1 (fun _ => halone.isAggregate)
    (by rintro ⟨⟩) fun b hb => hE b (List.mem_append_left _ hb)) ?_
  rintro _ t₁ s₁ _ - ⟨h₁, _⟩
  refine (ihm t₁ s₁ h₁.tidy hid.2 fun b hb => hE b (List.mem_append_right _ hb)).weaken ?_
  intro fields t₂ h₂
  exact ⟨h₁.trans h₂.1, h₂.2⟩

end

theorem walks_settle {E : Prop} :
    (∀ site ty, TypeSettles E site ty) ∧
    (∀ name location sig, SignatureSettles E name location sig) ∧
    (∀ name here ds, ParamsSettle E name here ds) ∧
    (∀ kind invented spec, ContainerSettles E kind invented spec) ∧
    (∀ owner label ms, MembersSettle E owner label ms) := by
  refine induct ?derived ?word ?container ?enumeration ?function ?reference ?body ?signature
    ?noArgument ?argument ?noMember ?passed ?named ?spliced ?alone
  case derived =>
    intro site d target ih t place s ht hid hname _ hE
    rw [Indirection.bodies_type] at hE
    rw [Indirection.identified_type] at hid
    rw [Indirection.isDefinition_type]
    have hsome : site.name ≠ none := fun hn => by simpa using hname hn
    exact indirection_settles s ht d ih hid hsome hE
  case word =>
    intro site words t place s ht _ _ _ _
    unfold resolve
    refine .last (identifier_leads s words site.location)
      (identifier_settles s ht words site.location) ?_
    rintro h t₁ _ _ ⟨_, hd⟩ h₁
    have hd : Denotes t₁.typedefs t₁.graph (.identifier words) h := by
      unfold Denotes
      exact hd
    exact ⟨h₁, fun hu => absurd hu (not_untagged_of_denotes hd rfl)⟩
  case container =>
    intro site kind spec ih t place s ht hid _ hplace hE
    unfold resolve
    refine .bind (inventTag_leads s _ site) (inventTag_settles ht _ site) ?_
    rintro invented t₁ s₁ _ - ⟨h₁, hg, hinvented⟩
    obtain ⟨tag, members, location⟩ := spec
    have hin : ∀ ms, members = some ms → identifiedMembers ms = true ∧
        ∀ b ∈ bodiesOfMembers ms, b.Blank → E := by
      rintro ms rfl
      exact ⟨hid, fun b hb => hE b (List.mem_append_left _ hb)⟩
    refine .bind (container_leads s₁ kind invented _) (ih invented t₁ s₁ h₁.tidy hin) ?_
    rintro h t₂ _ _ - ⟨h₂, hbare, hbody⟩
    refine hoistIf_settles h₁ hg h₂ hinvented hbare ?_ fun hp htag => ?_
    · cases members with
      | none => exact .inl hid
      | some ms => exact .inr rfl
    · cases members with
      | none =>
        cases htag
        cases hid
      | some ms =>
        by_cases hms : resultingFields ms = []
        · refine .inr (hE (.container place kind tag ms) (List.mem_append_right _ ?_) ?_)
          · exact List.mem_singleton_self _
          · exact ⟨hplace hp, htag, by simp [Body.names, hms]⟩
        · exact .inl (hbody ms rfl hms)
  case enumeration =>
    intro site spec t place s ht hid _ hplace hE
    unfold resolve
    refine .bind (inventTag_leads s _ site) (inventTag_settles ht _ site) ?_
    rintro invented t₁ s₁ _ - ⟨h₁, hg, hinvented⟩
    obtain ⟨tag, enumerators, location⟩ := spec
    refine .bind (enumeration_leads s₁ _ invented) (enumeration_settles s₁ h₁.tidy _ invented) ?_
    rintro h t₂ _ _ - ⟨h₂, hbare, hbody⟩
    have hid : tag.isSome = true ∨ enumerators.isSome = true := by
      simpa [TypeExpr.identified] using hid
    refine hoistIf_settles h₁ hg h₂ hinvented hbare hid fun hp htag => ?_
    replace htag : tag = none := htag
    cases enumerators with
    | none => simp [htag] at hid
    | some es =>
      by_cases hes : es = []
      · refine .inr (hE (.enumeration place tag es) (List.mem_singleton_self _) ?_)
        exact ⟨hplace hp, htag, by simp [Body.names, hes]⟩
      · exact .inl (hbody es rfl hes)
  case function =>
    intro site sig ih t place s ht hid _ _ hE
    unfold resolve
    refine .last (walks_lead.2.1 _ _ sig t s) (ih t s ht hid hE) ?_
    rintro h t₁ _ _ ⟨⟨_, hd⟩, _⟩ h₁
    exact ⟨h₁, fun hu => absurd hu (not_untagged_of_denotes hd rfl)⟩
  case reference =>
    intro kind invented tag location t s ht _
    unfold container
    refine (openNode_settles s ht (some kind) tag invented location).weaken ?_
    rintro h t₁ ⟨h₁, hbare⟩
    exact ⟨h₁, fun hu => (hbare hu).1, by rintro _ ⟨⟩⟩
  case body =>
    intro kind invented tag ms location ih t s ht hin
    obtain ⟨hid, hE⟩ := hin ms rfl
    refine (body_settles s ht kind tag invented location ih hid hE).weaken ?_
    rintro h t' ⟨h₁, hbare, hbody⟩
    refine ⟨h₁, hbare, ?_⟩
    rintro _ ⟨⟩
    exact hbody
  case signature =>
    intro name location returns params variadic ihr iha t s ht hid hE
    have hboth : returns.identified = true ∧ identifiedParams params = true := by
      simpa [Signature.identified] using hid
    exact signature_settles s ht name location variadic ihr iha hboth.1 hboth.2 hE
  case noArgument =>
    intro name here t s ht _ _
    unfold arguments
    exact .pure ⟨.refl ht, by simp⟩
  case argument =>
    intro name here argument type location ds iht ihd t s ht hid hE
    unfold arguments
    obtain ⟨hty, hds⟩ : type.identified = true ∧ identifiedParams ds = true := by
      simpa [identifiedParams] using hid
    have hsite : (argument <|> some name) ≠ none := by cases argument <;> simp
    refine .bind (resolve_leads s _ type) (iht t .nested s ht hty (fun hn => absurd hn hsite)
      (by rintro ⟨⟩) fun b hb => hE b (List.mem_append_left _ hb)) ?_
    rintro h t₁ s₁ _ ⟨_, hd⟩ ⟨h₁, hstays⟩
    refine .bind (arguments_leads s₁ name here ds)
      (ihd t₁ s₁ h₁.tidy hds fun b hb => hE b (List.mem_append_right _ hb)) ?_
    rintro args t₂ _ e₂ _ ⟨h₂, hargs⟩
    refine .pure ⟨h₁.trans h₂, fun a ha hu => ?_⟩
    rcases List.mem_cons.mp ha with rfl | ha
    · exact hsite ((hstays (hu.of_grows e₂.graph hd.lt)).nameless rfl)
    · exact hargs a ha hu
  case noMember =>
    intro owner label t s ht _ _
    unfold members
    exact .pure ⟨.refl ht, by simp, fun hne => absurd rfl hne⟩
  case passed =>
    intro owner label m ms hm ih t s ht hid hE
    rw [bodiesOfMembers_passed hm] at hE
    rw [members_passed hm, resultingFields_passed hm]
    exact ih t s ht (identifiedMembers_tail hid) hE
  case named =>
    intro owner label name type location ms iht ihm t s ht hid hE
    unfold members
    obtain ⟨hty, hms⟩ : type.identified = true ∧ identifiedMembers ms = true := by
      simpa [identifiedMembers] using hid
    refine .bind ((resolve_leads s _ type).adapt _) ((iht t .member s ht hty (by rintro ⟨⟩)
      (fun _ => rfl) fun b hb => hE b (List.mem_append_left _ hb)).adapt _) ?_
    rintro h t₁ s₁ _ ⟨_, hd⟩ ⟨h₁, hstays⟩
    refine .bind (members_leads s₁ owner label ms)
      (ihm t₁ s₁ h₁.tidy hms fun b hb => hE b (List.mem_append_right _ hb)) ?_
    rintro fields t₂ _ e₂ _ ⟨h₂, hfields, _⟩
    refine .pure ⟨h₁.trans h₂, fun f hf => ?_, fun _ => List.cons_ne_nil _ _⟩
    rcases List.mem_cons.mp hf with rfl | hf
    · exact h₂.keeps.introduces e₂ hd.lt fun hu => ⟨(hstays hu).defines, (hstays hu).body rfl⟩
    · exact hfields f hf
  case spliced =>
    intro owner label kind inner place location ms ihc ihm t s ht hid hE
    unfold members
    have hboth : identifiedMembers inner = true ∧ identifiedMembers ms = true := by
      simpa [identifiedMembers, TypeExpr.identified, ContainerSpec.identified] using hid
    exact spliced_settles s ht ihc ihm hboth.1 hboth.2 hE
  case alone =>
    intro owner label type location ms halone iht ihm t s ht hid hE
    rw [bodiesOfMembers_alone halone] at hE
    rw [members_alone halone, resultingFields_alone halone]
    exact alone_settles s ht halone iht ihm (by simpa [identifiedMembers] using hid) hE

end Walk

end CythonDecls
