import CythonDecls.Proofs.Translation.Numbering
import CythonDecls.Proofs.Translation.Written

/-!
# What a walk ensures

What the result of a walk satisfies when there is one, beside what every walk
leads to. Single steps write no body: they add nodes without one, set nodes
that have none, or enter a tag for a node that is new.
-/

namespace CythonDecls

namespace Walk

open Translator

/-- A result of the walk from `t` satisfies `Q`. -/
def Ensures {α : Type} (t : Translator) (w : Walk α) (Q : α → Translator → Prop) : Prop :=
  ∀ a t', w.run t = (.ok a, t') → Q a t'

section
variable {α β : Type} {t : Translator} {w : Walk α} {f : α → Walk β}
  {P Q R' : α → Translator → Prop} {R : β → Translator → Prop}

theorem Ensures.pure {a : α} (hq : Q a t) : Ensures t (Pure.pure a) Q := by
  intro b t' h
  cases h
  exact hq

theorem Ensures.throw (e : TranslateError) : Ensures t (MonadExcept.throw e : Walk α) Q :=
  fun _ _ h => by cases h

theorem Ensures.of_run {r : Translator} {v : Walk α} (h : w.run t = v.run r)
    (hv : Ensures r v Q) : Ensures t w Q := by
  unfold Ensures at hv ⊢
  rwa [h]

theorem Ensures.of_gives (h : Gives t w P) (hp : ∀ a t', P a t' → Q a t') : Ensures t w Q := by
  obtain ⟨a, t', hrun, ha⟩ := h
  intro b t₁ hb
  rw [hrun] at hb
  cases hb
  exact hp a t' ha

theorem Ensures.of_error {e : TranslateError} (h : w.run t = (.error e, t)) : Ensures t w Q := by
  intro a t' hrun
  rw [h] at hrun
  cases hrun

theorem Ensures.of_leads (h : Leads t w Q) : Ensures t w Q := by
  intro a t' hrun
  have := h.2.2 a (by rw [hrun])
  rwa [hrun] at this

theorem Ensures.bind (hw : Leads t w P) (he : Ensures t w Q)
    (hf : ∀ a t₁, t₁.Sound → t.Extends t₁ → P a t₁ → Q a t₁ → Ensures t₁ (f a) R) :
    Ensures t (w >>= f) R := by
  intro b t' hrun
  rw [run_bind] at hrun
  obtain ⟨s, e, hp⟩ := hw
  cases h : w.run t with
  | mk r t₁ =>
    rw [h] at hrun s e hp
    cases r with
    | error err => cases hrun
    | ok a => exact hf a t₁ s e (hp a rfl) (he a t₁ h) b t' hrun

theorem Ensures.weaken {Q' : α → Translator → Prop} (h : Ensures t w Q)
    (hq : ∀ a t₁, Q a t₁ → Q' a t₁) : Ensures t w Q' :=
  fun a t' hrun => hq a t' (h a t' hrun)

theorem Ensures.and {Q' : α → Translator → Prop} (h : Ensures t w Q) (h' : Ensures t w Q') :
    Ensures t w fun a t' => Q a t' ∧ Q' a t' :=
  fun a t' hrun => ⟨h a t' hrun, h' a t' hrun⟩

/-- As `bind`, for a walk that comes last. -/
theorem Ensures.last (hw : Leads t w P) (he : Ensures t w Q)
    (h : ∀ a t₁, t₁.Sound → t.Extends t₁ → P a t₁ → Q a t₁ → R' a t₁) : Ensures t w R' := by
  intro a t' hrun
  obtain ⟨s, e, hp⟩ := hw
  rw [hrun] at s e hp
  exact h a t' s e (hp a rfl) (he a t' hrun)

theorem Ensures.adapt (h : Ensures t w Q) (g : TranslateError → TranslateError) :
    Ensures t (ExceptT.adapt g w) Q := by
  intro a t' hrun
  have hr : (ExceptT.adapt g w).run t = ((w.run t).1.mapError g, (w.run t).2) := rfl
  rw [hr] at hrun
  refine h a t' ?_
  cases hw : w.run t with
  | mk r t₁ =>
    rw [hw] at hrun
    cases r with
    | error e => cases hrun
    | ok b => exact hrun

theorem Ensures.get {f : Translator → Walk β} (hf : Ensures t (f t) R) :
    Ensures t (MonadState.get >>= f) R := hf

theorem Ensures.modify {f : Translator → Translator} {Q : PUnit → Translator → Prop}
    (hq : Q ⟨⟩ (f t)) : Ensures t (modify f : Walk PUnit) Q := by
  intro a t' h
  cases h
  exact hq

end

end Walk

namespace Translator

section
variable {t t' : Translator}

/-! ## Steps that write nothing -/

theorem step_same (hg : t'.graph = t.graph) (hl : t'.lookup = t.lookup) :
    t.Step t' [] where
  kept _ _ hn _ _ := hg ▸ hn
  bodies _ _ hn _ _ := hg ▸ hn
  size := Nat.le_of_eq (congrArg Graph.size hg.symm)
  tags _ _ hk := .inl (hl ▸ hk)

theorem step_grow {g : Graph} {n : Node} (hn : n.hasBody = false)
    (hnodes : g.nodes = (t.graph.add n).nodes) : t.Step { t with graph := g } [] := by
  have hget (h) : g.get? h = (t.graph.add n).get? h := by simp only [Graph.get?, hnodes]
  constructor
  case kept => exact fun h m hm _ _ => (hget h).trans (Graph.get?_add_of_some hm n)
  case bodies =>
    intro h m hm hb _
    have hm := (hget h).symm.trans hm
    rw [Graph.get?_add] at hm
    split at hm
    · cases hm
      rw [hn] at hb
      cases hb
    · exact hm
  case size =>
    have hs : g.size = (t.graph.add n).size := congrArg Array.size hnodes
    rw [hs, Graph.size_add]
    exact Nat.le_succ _
  case tags => exact fun key h hk => .inl (by rwa [lookup_withGraph] at hk)

theorem step_add {n : Node} (hn : n.hasBody = false) :
    t.Step { t with graph := t.graph.add n } [] := step_grow hn rfl

theorem step_set {h : Handle} {m n : Node} (hm : t.graph.get? h = some m)
    (ha : m.isAggregate = false) (hb : n.hasBody = false) :
    t.Step { t with graph := t.graph.set h n } [] := by
  have hs := step_write t h n
  refine ⟨?kept, ?bodies, hs.size, hs.tags⟩
  case kept =>
    intro k m' hm' ha' _
    refine hs.kept k m' hm' ha' fun hk => ?_
    rw [List.mem_singleton.mp hk, hm] at hm'
    cases hm'
    rw [ha] at ha'
    cases ha'
  case bodies =>
    intro k m' hm' hb' _
    refine hs.bodies k m' hm' hb' fun hk => ?_
    rw [List.mem_singleton.mp hk, Graph.get?_set_self hm] at hm'
    cases hm'
    rw [hb] at hb'
    cases hb'

theorem step_withTypedef (d : TypedefDecl) : t.Step (t.withTypedef d) [] := by
  have hadd : t.Step { t with graph := t.graph.add (.typedef ⟨d.name, none, d.location⟩) } [] :=
    step_add rfl
  refine ⟨hadd.kept, hadd.bodies, hadd.size, ?_⟩
  rintro ⟨_ | kind, tag⟩ k hk
  · exact .inl hk
  · cases kind <;> exact .inl hk

theorem Reads.step {words : List String} {h : Handle} (r : t.Reads words h t') : t.Step t' [] := by
  cases r with
  | typedef => exact .refl t
  | known => exact .refl t
  | new => exact step_grow (n := .fundamental (.ofKey (Specifier.canonicalKey words))) rfl rfl

theorem Step.enter {key : Option ContainerKind × String} {h : Handle} (hs : t.Step t' [])
    (hlt : t.graph.size ≤ h.index) : t.Step (t'.enter key h) [] where
  kept := by simpa using hs.kept
  bodies := by simpa using hs.bodies
  size := by simpa using hs.size
  tags k j hj := by
    rw [lookup_enter] at hj
    split at hj
    · cases hj
      exact .inr hlt
    · exact hs.tags k j hj

theorem lookup_ne_next (s : t.Sound) (key : Option ContainerKind × String) :
    t.lookup key ≠ some t.graph.next := by
  intro hk
  obtain ⟨n, hn, _⟩ := s.lookup hk
  rw [Graph.get?_next] at hn
  cases hn

section
variable {sort : Option ContainerKind} {location : Option Location} {tag invented : Option String}
  {h : Handle}

theorem Opens.step (o : t.Opens sort location tag invented h t') : t.Step t' [] := by
  cases o with
  | untagged => exact step_add (by simp)
  | known => exact .refl t
  | entered => exact (step_add (by simp)).enter (Nat.le_refl _)

theorem Opens.keyed (o : t.Opens sort location tag invented h t') (s : t.Sound) :
    t.Keyed t' (tag.map (sort, ·)) h := by
  cases o with
  | untagged =>
    refine ⟨.inl (Nat.le_refl _), fun _ key => ?_⟩
    rw [lookup_withGraph]
    exact lookup_ne_next s key
  | known _ hk => exact ⟨.inr ⟨_, rfl, hk⟩, fun h => by cases h⟩
  | entered => exact ⟨.inl (Nat.le_refl _), fun h => by cases h⟩

theorem Opens.tag_of_untagged (o : t.Opens sort location tag invented h t') {n : Node}
    (hn : t'.graph.get? h = some n) (ht : tag = none) : n.tag? = invented := by
  cases o with
  | untagged =>
    rw [Graph.get?_add_next] at hn
    cases hn
    exact Node.tag?_blank ..
  | known => cases ht
  | entered => cases ht

end

end

end Translator

namespace Walk

open Translator

section
variable {t : Translator}

theorem add_ensures {n : Node} (hn : n.hasBody = false) :
    Ensures t (add n) fun h t' => t.Step t' [] ∧ t'.hoisted = t.hoisted ∧ h = t.graph.next := by
  intro h t' hrun
  cases hrun
  exact ⟨step_add hn, rfl, rfl⟩

theorem inventTag_ensures (isAnonymous : Bool) (site : Site) :
    Ensures t (inventTag isAnonymous site) fun invented t' =>
      (t.Step t' [] ∧ t'.hoisted = t.hoisted) ∧
        (isAnonymous = true → site.position = .nested → site.name.isSome → invented.isSome) :=
  .of_gives (inventTag_gives isAnonymous site) fun _ _ i =>
    ⟨⟨step_same i.graph i.lookup, i.hoisted⟩, i.isSome⟩

theorem identifier_ensures (words : List String) (location : Option Location) :
    Ensures t (identifier words location) fun _ t' => t.Step t' [] ∧ t'.hoisted = t.hoisted := by
  obtain hg | ⟨-, hrun⟩ := identifier_cases (t := t) words location
  · exact .of_gives hg fun _ _ r => ⟨r.step, r.hoisted⟩
  · exact .of_error hrun

/-! ## Nodes of tags -/

/-- The node for a body is new, or one that its tag has already. -/
structure Reserved (t t' : Translator) (sort : Option ContainerKind) (tag : Option String)
    (h : Handle) : Prop where
  step : t.Step t' []
  hoisted : t'.hoisted = t.hoisted
  keyed : t.Keyed t' (tag.map (sort, ·)) h

theorem Reserved.untagged {t' : Translator} {sort : Option ContainerKind} {tag : Option String}
    {h : Handle} (hr : Reserved t t' sort tag h) (ht : tag = none) :
    ∀ key, t'.lookup key ≠ some h :=
  hr.keyed.untagged (by rw [ht]; rfl)

theorem Reserved.key {t' : Translator} {sort : Option ContainerKind} {tag : Option String}
    {h : Handle} (hr : Reserved t t' sort tag h) {b : Body} (hkind : b.kind = sort)
    (htag : b.tag = tag) :
    t.graph.size ≤ h.index ∨ ∃ key, b.key? = some key ∧ t.lookup key = some h := by
  have hkey : b.key? = tag.map (sort, ·) := by rw [Body.key?, htag, hkind]
  exact hkey ▸ hr.keyed.origin

/-- A tag that has the node of a container is the tag that the container was opened with. -/
theorem Reserved.key_of_lookup {t' : Translator} {kind : ContainerKind} {tag : Option String}
    {h : Handle} {c : Container} (hr : Reserved t t' (some kind) tag h) (s : t'.Sound)
    (hn : t'.graph.get? h = some (.container kind c)) (htag : tag.isSome → c.tag = tag)
    {key : Option ContainerKind × String} (hlook : t'.lookup key = some h) :
    tag.map (some kind, ·) = some key := by
  cases tag with
  | none => exact absurd hlook (hr.untagged rfl key)
  | some tag =>
    obtain ⟨n, hget, hkey⟩ := s.lookup hlook
    rw [hn] at hget
    cases hget
    rwa [Node.key?, htag rfl] at hkey

theorem Reserved.not_mem {t' : Translator} {kind : ContainerKind} {tag : Option String}
    {h : Handle} {c : Container} (hr : Reserved t t' (some kind) tag h) (s : t'.Sound)
    (hn : t'.graph.get? h = some (.container kind c)) (htag : tag.isSome → c.tag = tag)
    {bs : List Body} {hs : List Handle}
    (horigin : ∀ k ∈ hs, t'.graph.size ≤ k.index ∨
      ∃ b ∈ bs, ∃ key, b.key? = some key ∧ t'.lookup key = some k)
    (hkeys : ∀ b ∈ bs, ∀ key, b.key? = some key → tag.map (some kind, ·) ≠ some key) : h ∉ hs := by
  intro hmem
  rcases horigin h hmem with hlt | ⟨b, hb, key, hkey, hlook⟩
  · exact absurd (Graph.lt_of_get? hn) (Nat.not_lt.mpr hlt)
  · exact hkeys b hb key hkey (hr.key_of_lookup s hn htag hlook)

theorem openNode_ensures (s : t.Sound) (sort : Option ContainerKind) (tag invented : Option String)
    (location : Option Location) :
    Ensures t (openNode sort tag invented location) fun h t' =>
      Reserved t t' sort tag h ∧ ∀ n, t'.graph.get? h = some n → tag = none → n.tag? = invented :=
  .of_gives (openNode_gives sort tag invented location) fun _ _ o =>
    ⟨⟨o.step, o.hoisted, o.keyed s⟩, fun _ => o.tag_of_untagged⟩

end

/-! ## Bodies and hoisting -/

theorem setValues_ensures {t : Translator} {h : Handle} {e : Enumeration}
    (hn : t.graph.get? h = some (.enumeration e)) (values : List EnumValue)
    (location : Option Location) :
    Ensures t (setValues h values location) fun _ t' =>
      ∃ e', e'.tag = e.tag ∧ e'.values = values ∧
        t' = { t with graph := t.graph.set h (.enumeration e') } := by
  unfold setValues modifyGraph
  apply Ensures.modify
  simp only [hn]
  exact ⟨{ e with values, location := location <|> e.location }, rfl, rfl, rfl⟩

theorem enumValues_ensures {t : Translator} (es : List Enumerator) :
    Ensures t (liftM (enumValues es) : Walk (List EnumValue)) fun values t' =>
      t' = t ∧ values.map (·.name) = es.map (·.name) := by
  cases hv : enumValues es with
  | ok values => exact .pure ⟨rfl, enumValuesFrom_names hv⟩
  | error err => exact .throw err

theorem fieldsOf_ensures {t : Translator} {h : Handle} {kind : ContainerKind} {c : Container}
    (hc : t.graph.get? h = some (.container kind c)) :
    Ensures t (fieldsOf h) fun fields t' => t' = t ∧ fields = c.fields := by
  unfold fieldsOf
  apply Ensures.get
  have : t.graph.container? h = some c := by simp only [Graph.container?, hc]; rfl
  rw [this]
  exact .pure ⟨rfl, rfl⟩

theorem tryGraph_ensures {t : Translator} {f : Graph → Except GraphError Graph} :
    Ensures t (tryGraph f) fun _ t' => ∃ g, f t.graph = .ok g ∧ t' = { t with graph := g } := by
  unfold tryGraph
  apply Ensures.get
  cases h : f t.graph with
  | error e => exact .throw _
  | ok g => exact .modify ⟨g, rfl, rfl⟩

theorem hoistIf_ensures {t : Translator} (c : Prop) [Decidable c] (h : Handle) :
    Ensures t (do
      if c then hoist h
      return h) fun k t' =>
        k = h ∧ t.Step t' [] ∧ t'.graph = t.graph ∧ (c → h ∈ t'.hoisted) ∧
          ∀ k ∈ t'.hoisted, k ∈ t.hoisted ∨ c ∧ k = h := by
  refine .of_gives (hoistIf_gives c h) fun k t' o => ?_
  have hstep := step_same o.graph o.lookup
  cases o with
  | intro hmem =>
    exact ⟨rfl, hstep, rfl, fun hc => (hmem h).mpr (.inr ⟨hc, rfl⟩), fun j => (hmem j).mp⟩

end Walk

end CythonDecls
