import CythonDecls.Proofs.Graph.Items
import CythonDecls.Proofs.Translation.Denotes
import CythonDecls.Proofs.Translation.Soundness

/-!
# Every walk leads on

Each walk keeps a translator sound and only extends it, whether it succeeds or
not, and a node that it returns has the structure of what was read.
-/

namespace CythonDecls

theorem Node.mem_children_of_mem_parts {n : Node} {k : Handle} (hk : k ∈ n.parts) :
    k ∈ n.children := by
  cases n with
  | pointer _ => exact hk
  | array _ _ => exact hk
  | function _ => exact hk
  | fundamental _ => cases hk
  | container _ _ => cases hk
  | enumeration _ => cases hk
  | typedef _ => cases hk
  | object _ => cases hk

namespace Translator

section
variable {t t' : Translator} {h : Handle}

/-! ## Single steps -/

theorem Sound.add (s : t.Sound) {n : Node} (hc : ∀ k ∈ n.children, k.index < t.graph.size) :
    Sound { t with graph := t.graph.add n } :=
  s.withGraph (Graph.grows_add _ n)
    (s.closed.add hc fun k hk => hc k (Node.mem_children_of_mem_parts hk)) rfl rfl

theorem Extends.add (t : Translator) (n : Node) : t.Extends { t with graph := t.graph.add n } :=
  .withGraph (Graph.grows_add _ n)

section
variable {isAnonymous : Bool} {site : Site} {invented : Option String}

theorem Invents.sound (i : t.Invents isAnonymous site invented t') (s : t.Sound) : t'.Sound := by
  cases i with
  | nothing => exact s
  | tag => exact s.withInvented _

theorem Invents.extends (i : t.Invents isAnonymous site invented t') : t.Extends t' := by
  cases i with
  | nothing => exact .refl t
  | tag => exact .withInvented _

theorem Invents.graph (i : t.Invents isAnonymous site invented t') : t'.graph = t.graph := by
  cases i <;> rfl

theorem Invents.hoisted (i : t.Invents isAnonymous site invented t') : t'.hoisted = t.hoisted := by
  cases i <;> rfl

theorem Invents.lookup (i : t.Invents isAnonymous site invented t') : t'.lookup = t.lookup := by
  cases i with
  | nothing => rfl
  | tag => exact lookup_congr rfl rfl rfl

theorem Invents.within (i : t.Invents isAnonymous site invented t') : t.Within t' := by
  cases i <;> exact ⟨rfl, rfl, rfl, fun _ => id⟩

theorem Invents.isSome (i : t.Invents isAnonymous site invented t') (ha : isAnonymous = true)
    (hp : site.position = .nested) (hn : site.name.isSome) : invented.isSome := by
  cases i with
  | nothing h => exact absurd (h ha hp) (Option.isSome_iff_ne_none.mp hn)
  | tag => rfl

end

section
variable {words : List String}

theorem Reads.sound (r : t.Reads words h t') (s : t.Sound) : t'.Sound := by
  cases r with
  | typedef => exact s
  | known => exact s
  | new =>
    let n : Node := .fundamental (.ofKey (Specifier.canonicalKey words))
    have s' : Sound { t with graph := t.graph.add n } := s.add nofun
    refine ⟨⟨s'.closed.inRange, s'.closed.descending⟩, ?_, s'.typedefs, s'.containers, s'.enums,
      s'.functions, s'.hoisted, s'.items⟩
    intro key k hk
    simp only [Table.find?_insert] at hk
    split at hk
    · rename_i hkey
      cases hk
      rw [hkey]
      exact Graph.get?_add_next _ n
    · exact Graph.get?_add_of_some (s.fundamentals key k hk) n

theorem Reads.extends (r : t.Reads words h t') : t.Extends t' := by
  cases r with
  | typedef => exact .refl t
  | known => exact .refl t
  | new => exact .withGraph (Graph.grows_add t.graph _)

theorem Reads.within (r : t.Reads words h t') : t.Within t' := by
  cases r <;> exact ⟨rfl, rfl, rfl, fun _ => id⟩

theorem Reads.hoisted (r : t.Reads words h t') : t'.hoisted = t.hoisted := by
  cases r <;> rfl

theorem Reads.lookup (r : t.Reads words h t') : t'.lookup = t.lookup := by
  cases r with
  | typedef => rfl
  | known => rfl
  | new => exact lookup_withGraph _

theorem Reads.resolves (r : t.Reads words h t') :
    (namedTypedef? t.typedefs words).isSome ∨ Specifier.isSequence words := by
  cases r with
  | typedef hk => exact .inl (by rw [hk]; rfl)
  | known _ hs => exact .inr hs
  | new _ hs => exact .inr hs

theorem Reads.denotes (r : t.Reads words h t') (s : t.Sound) :
    DenotesWords t'.typedefs t'.graph words h := by
  unfold DenotesWords
  rw [r.within.typedefs]
  cases r with
  | typedef hk =>
    rw [hk]
    unfold namedTypedef? at hk
    split at hk
    · obtain ⟨d, hd, hn⟩ := s.typedefs _ _ hk
      exact ⟨rfl, d, hd, by rw [hn]⟩
    · cases hk
  | known hk _ hf =>
    rw [hk]
    exact s.fundamentals _ _ hf
  | new hk =>
    rw [hk]
    exact Graph.get?_add_next ..

end

section
variable {sort : Option ContainerKind} {kind : ContainerKind} {location : Option Location}
  {tag invented : Option String}

theorem Opens.sound (o : t.Opens sort location tag invented h t') (s : t.Sound) : t'.Sound := by
  have hadd (tag : Option String) :
      Sound { t with graph := t.graph.add (.blank sort tag location) } :=
    s.add (by simp)
  cases o with
  | untagged => exact hadd _
  | known => exact s
  | entered => exact (hadd _).enter (Graph.get?_add_next ..) (by simp)

theorem Opens.extends (o : t.Opens sort location tag invented h t') : t.Extends t' := by
  cases o with
  | untagged => exact .add t _
  | known => exact .refl t
  | entered _ hk => exact (Extends.add t _).trans (.enter (by rwa [lookup_withGraph]))

theorem Opens.within (o : t.Opens sort location tag invented h t') : t.Within t' := by
  cases o with
  | untagged => exact ⟨rfl, rfl, rfl, fun _ => id⟩
  | known => exact .refl t
  | entered =>
    refine ⟨by simp, by simp, ?_, by simp⟩
    rw [graph_enter]
    rfl

theorem Opens.hoisted (o : t.Opens sort location tag invented h t') : t'.hoisted = t.hoisted := by
  cases o <;> simp

theorem Opens.lookup {tag : String} (o : t.Opens sort location (some tag) invented h t') :
    t'.lookup (sort, tag) = some h := by
  cases o with
  | known _ hk => exact hk
  | entered => rw [lookup_enter, if_pos rfl]

theorem Opens.container (o : t.Opens (some kind) location tag invented h t') (s : t.Sound) :
    ∃ c, t'.graph.get? h = some (.container kind c) ∧ (tag.isSome → c.tag = tag) := by
  cases o with
  | untagged => exact ⟨_, Graph.get?_add_next .., nofun⟩
  | known _ hk =>
    obtain ⟨c, hc, htag⟩ := s.containers kind _ h hk
    exact ⟨c, hc, fun _ => htag⟩
  | entered =>
    rw [graph_enter]
    exact ⟨_, Graph.get?_add_next .., fun _ => rfl⟩

theorem Opens.enumeration (o : t.Opens none location tag invented h t') (s : t.Sound) :
    ∃ e, t'.graph.get? h = some (.enumeration e) ∧ (tag.isSome → e.tag = tag) := by
  cases o with
  | untagged => exact ⟨_, Graph.get?_add_next .., nofun⟩
  | known _ hk =>
    obtain ⟨e, he, htag⟩ := s.enums _ h hk
    exact ⟨e, he, fun _ => htag⟩
  | entered =>
    rw [graph_enter]
    exact ⟨_, Graph.get?_add_next .., fun _ => rfl⟩

end

section
variable {c : Prop} {k : Handle}

theorem Hoists.sound (o : t.Hoists c h k t') (s : t.Sound)
    (hn : c → ∃ n, t.graph.get? h = some n ∧ n.isAggregate = true) : t'.Sound := by
  cases o with
  | intro hmem =>
    refine s.withHoisted fun j hj => ?_
    obtain hj | ⟨hc, rfl⟩ := (hmem j).mp hj
    · exact s.hoisted j hj
    · exact hn hc

theorem Hoists.extends (o : t.Hoists c h k t') : t.Extends t' := by
  cases o
  exact .withHoisted

theorem Hoists.graph (o : t.Hoists c h k t') : t'.graph = t.graph := by
  cases o
  rfl

theorem Hoists.lookup (o : t.Hoists c h k t') : t'.lookup = t.lookup := by
  cases o
  exact lookup_congr rfl rfl rfl

theorem Hoists.within (o : t.Hoists c h k t') : t.Within t' := by
  cases o with
  | intro hmem => exact ⟨rfl, rfl, rfl, fun j hj => (hmem j).mpr (.inl hj)⟩

end

end

end Translator

namespace Walk

open Translator

/-- After a type: no typedef is new, and the result has its structure. -/
def Resolved (t : Translator) (ty : TypeExpr) (h : Handle) (t' : Translator) : Prop :=
  t.Within t' ∧ Denotes t.typedefs t'.graph ty h

section
variable {t : Translator} (s : t.Sound)
include s

theorem add_leads {n : Node} (hc : ∀ k ∈ n.children, k.index < t.graph.size) :
    Leads t (add n) fun h t' => t'.graph.get? h = some n ∧ t.Within t' := by
  refine ⟨s.add hc, .add t n, ?_⟩
  rintro _ ⟨⟩
  exact ⟨Graph.get?_add_next _ n, ⟨rfl, rfl, rfl, fun _ => id⟩⟩

theorem inventTag_leads (isAnonymous : Bool) (site : Site) :
    Leads t (inventTag isAnonymous site) fun _ t' => t.Within t' :=
  .of_gives (inventTag_gives isAnonymous site) fun _ _ i => ⟨i.sound s, i.extends, i.within⟩

theorem identifier_leads (words : List String) (location : Option Location) :
    Leads t (identifier words location) fun h t' =>
      t.Within t' ∧ DenotesWords t'.typedefs t'.graph words h := by
  obtain hg | ⟨-, hrun⟩ := identifier_cases (t := t) words location
  · exact .of_gives hg fun _ _ r => ⟨r.sound s, r.extends, r.within, r.denotes s⟩
  · exact .of_error s hrun

theorem containerNode_leads (kind : ContainerKind) (tag invented : Option String)
    (location : Option Location) :
    Leads t (containerNode kind tag invented location) fun h t' =>
      t.Within t' ∧
        ∃ c, t'.graph.get? h = some (.container kind c) ∧ (tag.isSome → c.tag = tag) :=
  .of_gives (openNode_gives (some kind) tag invented location) fun _ _ o =>
    ⟨o.sound s, o.extends, o.within, o.container s⟩

theorem enumNode_leads (tag invented : Option String) (location : Option Location) :
    Leads t (enumNode tag invented location) fun h t' =>
      t.Within t' ∧
        ∃ e, t'.graph.get? h = some (.enumeration e) ∧ (tag.isSome → e.tag = tag) :=
  .of_gives (openNode_gives none tag invented location) fun _ _ o =>
    ⟨o.sound s, o.extends, o.within, o.enumeration s⟩

/-! ## Bodies -/

theorem enumValues_leads (es : List Enumerator) :
    Leads t (liftM (enumValues es) : Walk (List EnumValue)) fun _ t' => t' = t := by
  cases h : enumValues es with
  | ok values => exact .pure s rfl
  | error e => exact .throw s e

theorem setValues_leads {h : Handle} {e : Enumeration}
    (hn : t.graph.get? h = some (.enumeration e)) (values : List EnumValue)
    (location : Option Location) :
    Leads t (setValues h values location) fun _ t' =>
      t.Within t' ∧
        ∃ e', t'.graph.get? h = some (.enumeration e') ∧ e'.tag = e.tag := by
  let e' : Enumeration := { e with values, location := location <|> e.location }
  have hb : (Node.enumeration e).Becomes (.enumeration e') := .enumeration rfl
  have hg := Graph.grows_set hn hb
  have hc : (t.graph.set h (.enumeration e')).Closed := s.closed.set hn hb (fun _ hk => nomatch hk)
  unfold setValues modifyGraph
  apply Leads.modify
  · simp only [hn]
    exact s.withGraph hg hc rfl rfl
  · simp only [hn]
    exact .withGraph hg
  · simp only [hn]
    exact ⟨⟨rfl, rfl, rfl, fun _ => id⟩, e', Graph.get?_set_self hn _, rfl⟩

theorem enumeration_leads (spec : EnumSpec) (invented : Option String) :
    Leads t (enumeration spec invented) (Resolved t (.enumeration spec)) := by
  obtain ⟨tag, es, location⟩ := spec
  unfold enumeration Resolved Denotes
  refine (enumNode_leads s tag invented location).bind ?_
  rintro h t₁ s₁ _ ⟨hw, e, he, htag⟩
  cases es with
  | none => exact .pure s₁ ⟨hw, e, he, htag⟩
  | some es =>
    refine (enumValues_leads s₁ es).bind ?_
    intro values t₂ _ _ hq
    subst hq
    refine (setValues_leads s₁ he values location).bind ?_
    rintro _ t₃ s₃ _ ⟨hw₃, e', he', htag'⟩
    exact .pure s₃ ⟨hw.trans hw₃, e', he', fun ht => htag'.trans (htag ht)⟩

theorem fieldsOf_leads (h : Handle) :
    Leads t (fieldsOf h) fun fields t' =>
      t' = t ∧ ∀ f ∈ fields, f.type.index < t.graph.size := by
  unfold fieldsOf
  apply Leads.get
  split
  · rename_i c hc
    refine .pure s ⟨rfl, fun f hf => ?_⟩
    unfold Graph.container? at hc
    obtain ⟨n, hn, hnc⟩ := Option.bind_eq_some_iff.mp hc
    cases n with
    | container kind c' =>
      cases hnc
      exact s.closed.inRange h _ hn _ (List.mem_map_of_mem hf)
    | _ => cases hnc
  · exact .pure s ⟨.refl t, fun _ hf => absurd hf List.not_mem_nil⟩

theorem tryGraph_leads {f : Graph → Except GraphError Graph}
    (hf : ∀ g, f t.graph = .ok g → t.graph.Grows g ∧ g.Closed ∧
      g.fundamentals = t.graph.fundamentals ∧ g.module = t.graph.module) :
    Leads t (tryGraph f) fun _ t' => t.Within t' ∧ ∃ g, f t.graph = .ok g ∧
      t' = { t with graph := g } := by
  unfold tryGraph
  apply Leads.get
  cases h : f t.graph with
  | error e => exact .throw s _
  | ok g =>
    obtain ⟨hg, hc, hfun, hmod⟩ := hf g h
    exact .modify (s.withGraph hg hc hfun hmod) (.withGraph hg) ⟨⟨rfl, rfl, hmod, fun _ => id⟩, g,
      rfl, rfl⟩

omit s in
theorem tryGraph_run {f : Graph → Except GraphError Graph} {g : Graph} (hf : f t.graph = .ok g) :
    (tryGraph f).run t = (.ok (), { t with graph := g }) := by
  unfold tryGraph
  rw [run_get]
  simp only [hf]
  rfl

omit s in
theorem setFields_run {h : Handle} {kind : ContainerKind} {c : Container}
    (hn : t.graph.get? h = some (.container kind c)) (fields : List Field)
    (location : Option Location) :
    (tryGraph (·.modifyContainer h fun c =>
      { c with fields, location := location <|> c.location })).run t = (.ok (), { t with
        graph := t.graph.set h
          (.container kind { c with fields, location := location <|> c.location }) }) :=
  tryGraph_run (by simp only [Graph.modifyContainer, hn])

theorem setFields_leads {h : Handle} {kind : ContainerKind} {c : Container}
    (hn : t.graph.get? h = some (.container kind c)) {fields : List Field}
    (hf : ∀ f ∈ fields, f.type.index < t.graph.size) (location : Option Location) :
    Leads t (tryGraph (·.modifyContainer h fun c =>
        { c with fields, location := location <|> c.location })) fun _ t' =>
      t.Within t' ∧
        ∃ c', t'.graph.get? h = some (.container kind c') ∧ c'.tag = c.tag := by
  refine (tryGraph_leads s ?_).weaken ?_
  · intro g hg
    obtain ⟨kind', c', hn', rfl⟩ := Graph.modifyContainer_ok hg
    refine ⟨Graph.grows_set hn' (.container kind' rfl), s.closed.set hn' (.container kind' rfl) ?_,
      rfl, rfl⟩
    intro k hk
    obtain ⟨f, hmem, rfl⟩ := List.mem_map.mp hk
    exact hf f hmem
  · rintro _ t₁ _ e₁ ⟨hw, _⟩
    obtain ⟨c', hc', htag⟩ := e₁.graph.container hn
    exact ⟨hw, c', hc', htag⟩

theorem assignTarget_leads {h target : Handle} (ht : target.index < t.graph.size) :
    Leads t (tryGraph (·.assignTarget h target)) fun _ _ => True := by
  refine (tryGraph_leads s ?_).weaken fun _ _ _ _ _ => trivial
  intro g hg
  obtain ⟨d, hn, hd, rfl⟩ := Graph.assignTarget_ok hg
  refine ⟨Graph.grows_set hn (.typedef rfl hd), s.closed.set hn (.typedef rfl hd) ?_, rfl, rfl⟩
  intro k hk
  rw [List.mem_singleton.mp hk]
  exact ht

end

/-! ## Types -/

theorem hoistIf_leads {t : Translator} (s : t.Sound) (ty : TypeExpr) {h : Handle} {site : Site}
    (hd : Denotes t.typedefs t.graph ty h) :
    Leads t (do
      if ty.isDefinition ∧ site.position = .nested then hoist h
      return h) (Resolved t ty) := by
  refine .of_gives (hoistIf_gives _ h) fun k t' o => ⟨o.sound s fun hc => hd.aggregate hc.1,
    o.extends, o.within, ?_⟩
  rw [o.graph]
  cases o
  exact hd

theorem definition_leads {t : Translator} (s : t.Sound) (site : Site) {ty : TypeExpr}
    (tag : Option String) {w : Option String → Walk Handle}
    (hw : ∀ invented t₁, t₁.Sound → Leads t₁ (w invented) (Resolved t₁ ty)) :
    Leads t (definition site ty tag w) (Resolved t ty) := by
  unfold definition
  refine (inventTag_leads s _ site).bind ?_
  intro invented t₁ s₁ _ h₁
  refine (hw invented t₁ s₁).bind ?_
  rintro h t₂ s₂ _ ⟨h₂, hd⟩
  refine (hoistIf_leads s₂ ty (h₂.typedefs ▸ hd)).weaken ?_
  rintro h t₃ _ _ ⟨h₃, hd₃⟩
  exact ⟨(h₁.trans h₂).trans h₃, (h₁.trans h₂).typedefs ▸ hd₃⟩

theorem walks_lead :
    (∀ site ty t, t.Sound → Leads t (resolve site ty) (Resolved t ty)) ∧
    (∀ name location sig t, t.Sound → Leads t (function name location sig) fun h t' =>
      Resolved t (.function sig) h t' ∧ ∃ f, t'.graph.get? h = some (.function f) ∧ f.name = name) ∧
    (∀ name here ds t, t.Sound → Leads t (arguments name here ds) fun args t' =>
      t.Within t' ∧ DenotesParams t.typedefs t'.graph ds args) ∧
    (∀ kind invented spec t, t.Sound →
      Leads t (container kind invented spec) (Resolved t (.container kind spec))) ∧
    (∀ owner label ms t, t.Sound → Leads t (members owner label ms) fun fields t' =>
      t.Within t' ∧ ∀ f ∈ fields, f.type.index < t'.graph.size) := by
  refine induct ?derived ?word ?container ?enumeration ?function ?reference ?body ?signature
    ?noArgument ?argument ?noMember ?passed ?named ?spliced ?alone
  case derived =>
    intro site d target ih t s
    rw [resolve_indirection]
    refine (ih t s).bind ?_
    rintro k t₁ s₁ _ ⟨hw, hd⟩
    refine (add_leads s₁ (by simpa using hd.lt)).weaken ?_
    rintro h t₂ _ e₂ ⟨hn, hw₂⟩
    exact ⟨hw.trans hw₂, denotes_indirection.mpr ⟨k, hn, hd.grow e₂.graph⟩⟩
  case word =>
    intro site words t s
    unfold resolve
    refine (identifier_leads s words site.location).weaken ?_
    rintro h t₁ _ _ ⟨hw, hd⟩
    refine ⟨hw, ?_⟩
    unfold Denotes
    exact hw.typedefs ▸ hd
  case container =>
    intro site kind spec ih t s
    rw [resolve_container]
    exact definition_leads s site spec.tag ih
  case enumeration =>
    intro site spec t s
    rw [resolve_enumeration]
    exact definition_leads s site spec.tag fun invented t₁ s₁ => enumeration_leads s₁ spec invented
  case function =>
    intro site sig ih t s
    unfold resolve
    exact (ih t s).weaken fun _ _ _ _ hq => hq.1
  case reference =>
    intro kind invented tag location t s
    unfold container
    refine (containerNode_leads s kind tag invented location).weaken ?_
    rintro h t₁ _ _ ⟨hw, hc⟩
    refine ⟨hw, ?_⟩
    unfold Denotes
    exact hc
  case body =>
    intro kind invented tag ms location ih t s
    unfold container
    refine (containerNode_leads s kind tag invented location).bind ?_
    rintro h t₁ s₁ _ ⟨hw, c, hn, htag⟩
    refine .of_run (run_named hn _) (.refl t₁) ?_
    refine (ih _ _ t₁ s₁).bind ?_
    rintro fields t₂ s₂ e₂ ⟨hw₂, hf⟩
    obtain ⟨c₂, hn₂, htag₂⟩ := e₂.graph.container hn
    refine (setFields_leads s₂ hn₂ hf location).bind ?_
    rintro _ t₃ s₃ _ ⟨hw₃, c₃, hn₃, htag₃⟩
    refine .pure s₃ ⟨(hw.trans hw₂).trans hw₃, ?_⟩
    unfold Denotes
    exact ⟨c₃, hn₃, fun ht => htag₃.trans (htag₂.trans (htag ht))⟩
  case signature =>
    intro name location returns params variadic ihr iha t s
    unfold function
    refine (ihr t s).bind ?_
    rintro r t₁ s₁ _ ⟨hw, hr⟩
    refine (iha t₁ s₁).bind ?_
    rintro args t₂ s₂ e₂ ⟨hw₂, ha⟩
    have hr₂ : Denotes t.typedefs t₂.graph returns r := hr.grow e₂.graph
    refine (add_leads s₂ (children_lt_of_denotes hr₂ ha)).weaken ?_
    rintro h t₃ _ e₃ ⟨hn, hw₃⟩
    refine ⟨⟨(hw.trans hw₂).trans hw₃, ?_⟩, _, hn, rfl⟩
    unfold Denotes
    exact ⟨_, hn, rfl, hr₂.grow e₃.graph, (hw.typedefs ▸ ha).grow e₃.graph⟩
  case noArgument =>
    intro name here t s
    unfold arguments
    refine .pure s ⟨.refl t, ?_⟩
    unfold DenotesParams
    rfl
  case argument =>
    intro name here argument type location ds iht ihd t s
    unfold arguments
    refine (iht t s).bind ?_
    rintro h t₁ s₁ _ ⟨hw, hd⟩
    refine (ihd t₁ s₁).bind ?_
    rintro args t₂ s₂ e₂ ⟨hw₂, ha⟩
    refine .pure s₂ ⟨hw.trans hw₂, ?_⟩
    unfold DenotesParams
    exact ⟨_, args, rfl, rfl, hd.grow e₂.graph, hw.typedefs ▸ ha⟩
  case noMember =>
    intro owner label t s
    unfold members
    exact .pure s ⟨.refl t, fun _ hf => absurd hf List.not_mem_nil⟩
  case passed =>
    intro owner label m ms hm ih t s
    rw [members_passed hm]
    exact ih t s
  case named =>
    intro owner label name type location ms iht ihm t s
    unfold members
    refine ((iht t s).adapt _).bind ?_
    rintro h t₁ s₁ _ ⟨hw, hd⟩
    refine (ihm t₁ s₁).bind ?_
    rintro fields t₂ s₂ e₂ ⟨hw₂, hf⟩
    refine .pure s₂ ⟨hw.trans hw₂, ?_⟩
    intro f hmem
    rcases List.mem_cons.mp hmem with hmem | hmem
    · rw [hmem]
      exact (hd.grow e₂.graph).lt
    · exact hf f hmem
  case spliced =>
    intro owner label kind inner place location ms ihc ihm t s
    unfold members
    refine (ihc t s).bind ?_
    rintro h t₁ s₁ _ ⟨hw, _⟩
    refine (fieldsOf_leads s₁ h).bind ?_
    rintro spliced t₁ _ _ ⟨hq, hs⟩
    subst hq
    refine (ihm t₁ s₁).bind ?_
    rintro fields t₂ s₂ e₂ ⟨hw₂, hf⟩
    refine .pure s₂ ⟨hw.trans hw₂, ?_⟩
    intro f hmem
    rcases List.mem_append.mp hmem with hmem | hmem
    · exact e₂.graph.lt (hs f hmem)
    · exact hf f hmem
  case alone =>
    intro owner label type location ms halone iht ihm t s
    rw [members_alone halone]
    refine (iht t s).bind ?_
    rintro _ t₁ s₁ _ ⟨hw, _⟩
    refine (ihm t₁ s₁).weaken ?_
    rintro fields t₂ _ _ ⟨hw₂, hf⟩
    exact ⟨hw.trans hw₂, hf⟩

theorem resolve_leads {t : Translator} (s : t.Sound) (site : Site) (ty : TypeExpr) :
    Leads t (resolve site ty) (Resolved t ty) :=
  walks_lead.1 site ty t s

theorem function_leads {t : Translator} (s : t.Sound) (name : String) (location : Option Location)
    (sig : Signature) : Leads t (function name location sig) fun h t' =>
      t.Within t' ∧ ∃ f, t'.graph.get? h = some (.function f) ∧ f.name = name :=
  (walks_lead.2.1 name location sig t s).weaken fun _ _ _ _ hq => ⟨hq.1.1, hq.2⟩

theorem container_leads {t : Translator} (s : t.Sound) (kind : ContainerKind)
    (invented : Option String) (spec : ContainerSpec) :
    Leads t (container kind invented spec) (Resolved t (.container kind spec)) :=
  walks_lead.2.2.2.1 kind invented spec t s

theorem arguments_leads {t : Translator} (s : t.Sound) (name : String) (here : Option Location)
    (ds : List Declaration) : Leads t (arguments name here ds) fun args t' =>
      t.Within t' ∧ DenotesParams t.typedefs t'.graph ds args :=
  walks_lead.2.2.1 name here ds t s

theorem members_leads {t : Translator} (s : t.Sound) (owner : Option String) (label : String)
    (ms : List Member) : Leads t (members owner label ms) fun fields t' =>
      t.Within t' ∧ ∀ f ∈ fields, f.type.index < t'.graph.size :=
  walks_lead.2.2.2.2 owner label ms t s

end Walk

/-! ## Typedefs -/

namespace Translator

/-- The state in which the target of a new typedef is read. -/
def withTypedef (t : Translator) (d : TypedefDecl) : Translator :=
  { t with
    graph := t.graph.add (.typedef ⟨d.name, none, d.location⟩)
    typedefs := t.typedefs.insert d.name t.graph.next }

section
variable {t : Translator}

@[simp] theorem graph_withTypedef (d : TypedefDecl) :
    (t.withTypedef d).graph = t.graph.add (.typedef ⟨d.name, none, d.location⟩) := rfl

@[simp] theorem typedefs_withTypedef (d : TypedefDecl) :
    (t.withTypedef d).typedefs = t.typedefs.insert d.name t.graph.next := rfl

theorem Sound.withTypedef (s : t.Sound) (d : TypedefDecl) : (t.withTypedef d).Sound := by
  have hc : (t.graph.add (.typedef ⟨d.name, none, d.location⟩)).Closed :=
    s.closed.add (fun _ hk => nomatch hk) (fun _ hk => nomatch hk)
  exact (s.withGraph (Graph.grows_add t.graph _) hc rfl rfl).enterTypedef (Graph.get?_add_next ..)

theorem Extends.withTypedef (d : TypedefDecl) (hf : t.typedefs.find? d.name = none) :
    t.Extends (t.withTypedef d) :=
  (Extends.withGraph (Graph.grows_add t.graph (.typedef ⟨d.name, none, d.location⟩))).trans
    (.enterTypedef hf)

end

end Translator

namespace Walk

open Translator

section
variable {t : Translator}

theorem typedef_known (d : TypedefDecl) {h : Handle} (hf : t.typedefs.find? d.name = some h) :
    (typedef d).run t = (.ok h, t) := by
  unfold typedef
  rw [run_get]
  simp only [hf]
  rfl

theorem typedef_new (d : TypedefDecl) (hf : t.typedefs.find? d.name = none) :
    (typedef d).run t = (do
      let target ← resolve ⟨some d.name, none, d.location, .typedefTarget⟩ d.type
      tryGraph (·.assignTarget t.graph.next target)
      return t.graph.next).run (t.withTypedef d) := by
  unfold typedef
  rw [run_get]
  simp only [hf]
  rfl

theorem typedef_leads (s : t.Sound) (d : TypedefDecl) :
    Leads t (typedef d) fun h t' => ∃ d', t'.graph.get? h = some (.typedef d') := by
  cases hf : t.typedefs.find? d.name with
  | some h =>
    obtain ⟨d', hd, _⟩ := s.typedefs _ h hf
    exact .of_run (v := Pure.pure h) (typedef_known d hf) (.refl t) (.pure s ⟨d', hd⟩)
  | none =>
    refine .of_run (typedef_new d hf) (.withTypedef d hf) ?_
    refine (resolve_leads (s.withTypedef d) _ d.type).bind ?_
    rintro target t₁ s₁ e₁ ⟨_, hd⟩
    refine (assignTarget_leads s₁ hd.lt).bind ?_
    intro _ t₂ s₂ e₂ _
    obtain ⟨d₂, hd₂, _⟩ := (e₁.trans e₂).graph.typedef (Graph.get?_add_next ..)
    exact .pure s₂ ⟨d₂, hd₂⟩

end

/-! ## Items -/

theorem declare_variable (name : String) {type : TypeExpr} (location : Option Location)
    (hty : ∀ sig, type ≠ .function sig) :
    declare name type location = (do
      let h ← resolve ⟨some name, none, location, .nested⟩ type
      let v ← add (.object ⟨name, h, location⟩)
      place v) := by
  cases type with
  | function sig => exact absurd rfl (hty sig)
  | _ => rfl

section
variable {t : Translator} (s : t.Sound)
include s

theorem place_leads {h : Handle} {n : Node} (hn : t.graph.get? h = some n)
    (hd : n.isDeclaration = true) : Leads t (place h) fun _ _ => True := by
  unfold place
  refine .modify ?_ ?_ trivial
  · constructor
    case closed => exact ⟨s.closed.inRange, s.closed.descending⟩
    case fundamentals => exact s.fundamentals
    case typedefs => exact s.typedefs
    case containers => intro kind; cases kind; exact s.containers .struct; exact s.containers .union
    case enums => exact s.enums
    case functions => exact s.functions
    case hoisted => intro _ hk; cases hk
    case items =>
      intro k hk
      simp only [Module.mem_push, Module.mem_pushAll] at hk
      rcases hk with (hk | hk) | hk
      · exact s.items k hk
      · obtain ⟨m, hm, ha⟩ := s.hoisted k (List.mem_filter.mp hk).1
        refine ⟨m, hm, ?_⟩
        cases m <;> first | rfl | cases ha
      · rw [hk]
        exact ⟨n, hn, hd⟩
  · constructor
    case containers => intro kind; cases kind <;> exact fun _ _ => id
    case graph => exact .refl _
    all_goals exact fun _ _ => id

theorem declareFunction_leads (name : String) (sig : Signature) (location : Option Location) :
    Leads t (declare name (.function sig) location) fun _ _ => True := by
  unfold declare
  apply Leads.get
  cases hc : t.functions.find? name with
  | some h =>
    simp only [Table.contains, hc, Option.isSome_some, if_true]
    exact .pure s trivial
  | none =>
    simp only [Table.contains, hc, Option.isSome_none]
    refine (function_leads s name location sig).bind ?_
    rintro h t₁ s₁ _ ⟨hw, f, hn, rfl⟩
    have he : t₁.Extends { t₁ with functions := t₁.functions.insert f.name h } :=
      .enterFunction (hw.functions ▸ hc)
    refine (Leads.modify (s₁.enterFunction hn) he rfl).bind (Q := fun _ t' => t' = _) ?_
    rintro _ t₂ s₂ _ rfl
    exact place_leads s₂ hn rfl

theorem declareVariable_leads (name : String) {type : TypeExpr} (location : Option Location)
    (hty : ∀ sig, type ≠ .function sig) :
    Leads t (declare name type location) fun _ _ => True := by
  rw [declare_variable name location hty]
  refine (resolve_leads s _ type).bind ?_
  rintro h t₁ s₁ _ ⟨_, hd⟩
  refine (add_leads s₁ (by simpa [Node.children] using hd.lt)).bind ?_
  rintro v t₂ s₂ _ ⟨hn, _⟩
  exact place_leads s₂ hn rfl

theorem placeTagged_leads {h : Handle} {n : Node} (hn : t.graph.get? h = some n)
    (hd : n.isDeclaration = true) (defines : Bool) :
    Leads t (placeTagged h defines) fun _ _ => True := by
  unfold placeTagged
  cases defines with
  | false => exact place_leads s hn hd
  | true =>
    have s' : Sound { t with graph := t.graph.mapModule (·.remove h) } := by
      constructor
      case closed => exact ⟨s.closed.inRange, s.closed.descending⟩
      case fundamentals => exact s.fundamentals
      case typedefs => exact s.typedefs
      case containers => exact s.containers
      case enums => exact s.enums
      case functions => exact s.functions
      case hoisted => exact s.hoisted
      case items => exact fun k hk => s.items k (Module.mem_of_mem_remove hk)
    have he : t.Extends { t with graph := t.graph.mapModule (·.remove h) } :=
      .withGraph (Graph.Grows.refl t.graph)
    refine (Leads.modify s' he rfl).bind (Q := fun _ t' => t' = _) ?_
    rintro _ t₁ s₁ _ rfl
    exact place_leads s₁ hn hd

theorem item_leads (i : Item) : Leads t (item i) fun _ _ => True := by
  cases i with
  | typedef d =>
    refine (typedef_leads s d).bind ?_
    rintro h t₁ s₁ _ ⟨d', hn⟩
    exact place_leads s₁ hn rfl
  | container kind spec =>
    refine (container_leads s kind none spec).bind ?_
    rintro h t₁ s₁ _ ⟨_, hd⟩
    obtain ⟨tag, ms, location⟩ := spec
    unfold Denotes at hd
    obtain ⟨c, hn, _⟩ := hd
    exact placeTagged_leads s₁ hn rfl _
  | enumeration spec =>
    refine (enumeration_leads s spec none).bind ?_
    rintro h t₁ s₁ _ ⟨_, hd⟩
    obtain ⟨tag, es, location⟩ := spec
    unfold Denotes at hd
    obtain ⟨e, hn, _⟩ := hd
    exact placeTagged_leads s₁ hn rfl _
  | declaration d =>
    obtain ⟨name, type, location⟩ := d
    cases name with
    | none => exact .pure s trivial
    | some name =>
      by_cases hty : ∃ sig, type = .function sig
      · obtain ⟨sig, rfl⟩ := hty
        exact declareFunction_leads s name sig location
      · exact declareVariable_leads s name location fun sig he => hty ⟨sig, he⟩
  | ignored what => exact .pure s trivial

theorem items_lead (is : List Item) : Leads t (is.forM item) fun _ _ => True := by
  induction is generalizing t with
  | nil => exact .pure s trivial
  | cons i is ih =>
    refine (item_leads s i).bind ?_
    intro _ t₁ s₁ _ _
    exact ih s₁

end

end Walk

namespace Translator

def feedAll (t : Translator) (us : List SourceUnit) : Translator :=
  us.foldl (fun t u => (t.feed u).2) t

theorem Sound.feed {t : Translator} (s : t.Sound) (u : SourceUnit) :
    (t.feed u).2.Sound ∧ t.Extends (t.feed u).2 :=
  ⟨(Walk.items_lead s u.items).1, (Walk.items_lead s u.items).2.1⟩

theorem Sound.feedAll {t : Translator} (s : t.Sound) (us : List SourceUnit) :
    (t.feedAll us).Sound ∧ t.Extends (t.feedAll us) := by
  induction us generalizing t with
  | nil => exact ⟨s, .refl t⟩
  | cons u us ih =>
    obtain ⟨s₁, e₁⟩ := s.feed u
    obtain ⟨s₂, e₂⟩ := ih s₁
    exact ⟨s₂, e₁.trans e₂⟩

end Translator

theorem SourceUnit.translate_ok {u : SourceUnit} {g : Graph} (hg : u.translate = .ok g) :
    ∃ t, Translator.start.feed u = (.ok (), t) ∧ t.graph = g := by
  unfold translate at hg
  split at hg
  · rename_i t ht
    cases hg
    exact ⟨t, ht, rfl⟩
  · cases hg

end CythonDecls
