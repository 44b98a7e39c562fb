import CythonDecls.Proofs.Translation.Accounted
import CythonDecls.Proofs.Tree.Tags

/-!
# References lead to the entries of the name tables

Where a type mentions a tag or the name of a typedef, its node holds the handle
that the name tables have for it. Tables only gain entries, so the node that
was mentioned stays the one that a later definition or mention finds. A walk
enters no tag that is not written in what it reads.
-/

namespace CythonDecls

mutual
/-- The node of `h` holds, wherever a type mentions a tag or a typedef of `known`, the
entry of that name. -/
def Refers (known : Table String Handle) (t : Translator) : TypeExpr → Handle → Prop
  | .pointer target, h => ∃ k, t.graph.get? h = some (.pointer k) ∧ Refers known t target k
  | .array target dim, h => ∃ k, t.graph.get? h = some (.array k dim) ∧ Refers known t target k
  | .identifier words, h => ∀ k, namedTypedef? known words = some k →
    h = k ∧ namedTypedef? t.typedefs words = some k
  | .container kind ⟨tag, _, _⟩, h => ∀ name, tag = some name → t.lookup (some kind, name) = some h
  | .enumeration ⟨tag, _, _⟩, h => ∀ name, tag = some name → t.lookup (none, name) = some h
  | .function ⟨returns, params, _⟩, h => ∃ f, t.graph.get? h = some (.function f) ∧
    Refers known t returns f.returns ∧ RefersParams known t params f.arguments

def RefersParams (known : Table String Handle) (t : Translator) :
    List Declaration → List Argument → Prop
  | [], args => args = []
  | ⟨_, type, _⟩ :: ds, args => ∃ a rest, args = a :: rest ∧ Refers known t type a.type ∧
    RefersParams known t ds rest
end

/-- The fields of a body hold the entries of what the members mention. -/
def RefersFields (known : Table String Handle) (t : Translator) (ms : List Member) :
    List Field → Prop :=
  List.Forall₂ (fun written f => f.name = written.1 ∧ Refers known t written.2 f.type)
    (resultingFields ms)

/-- Where a type defines a struct or union, the node of `h` holds the fields of that body. -/
def RefersBody (known : Table String Handle) (t : Translator) (h : Handle) : TypeExpr → Prop
  | .container kind spec => ∀ ms, spec.members = some ms →
    ∃ c, t.graph.get? h = some (.container kind c) ∧ RefersFields known t ms c.fields
  | _ => True

section
variable {known : Table String Handle} {t t' : Translator}

mutual
theorem Refers.extend (e : t.Extends t') :
    ∀ (ty : TypeExpr) (h : Handle), Refers known t ty h → Refers known t' ty h
  | .pointer target, h, hr => by
    unfold Refers at hr ⊢
    obtain ⟨k, hn, hk⟩ := hr
    exact ⟨k, e.graph.pointer hn, Refers.extend e target k hk⟩
  | .array target dim, h, hr => by
    unfold Refers at hr ⊢
    obtain ⟨k, hn, hk⟩ := hr
    exact ⟨k, e.graph.array hn, Refers.extend e target k hk⟩
  | .identifier words, h, hr => by
    unfold Refers at hr ⊢
    intro k hk
    obtain ⟨hh, hnow⟩ := hr k hk
    refine ⟨hh, ?_⟩
    unfold namedTypedef? at hnow ⊢
    split at hnow
    · exact e.typedefs _ k hnow
    · cases hnow
  | .container kind ⟨tag, ms, location⟩, h, hr => by
    unfold Refers at hr ⊢
    exact fun name htag => e.lookup (hr name htag)
  | .enumeration ⟨tag, es, location⟩, h, hr => by
    unfold Refers at hr ⊢
    exact fun name htag => e.lookup (hr name htag)
  | .function ⟨returns, params, variadic⟩, h, hr => by
    unfold Refers at hr ⊢
    obtain ⟨f, hn, hret, hargs⟩ := hr
    exact ⟨f, e.graph.function hn, Refers.extend e returns _ hret,
      RefersParams.extend e params _ hargs⟩

theorem RefersParams.extend (e : t.Extends t') : ∀ (ds : List Declaration) (args : List Argument),
    RefersParams known t ds args → RefersParams known t' ds args
  | [], args, hr => hr
  | ⟨name, type, location⟩ :: ds, args, hr => by
    unfold RefersParams at hr ⊢
    obtain ⟨a, rest, hargs, ht, hrest⟩ := hr
    exact ⟨a, rest, hargs, Refers.extend e type _ ht, RefersParams.extend e ds rest hrest⟩
end

theorem refers_indirection {d : Indirection} {target : TypeExpr} {h : Handle} :
    Refers known t (d.type target) h ↔
      ∃ k, t.graph.get? h = some (d.node k) ∧ Refers known t target k := by
  cases d <;> rw [Indirection.type, Refers] <;> rfl

theorem refersBody_indirection (d : Indirection) (target : TypeExpr) (h : Handle) :
    RefersBody known t h (d.type target) := by
  cases d <;> trivial

theorem RefersFields.extend (e : t.Extends t') {ms : List Member} {fs : List Field}
    (hr : RefersFields known t ms fs) : RefersFields known t' ms fs :=
  hr.imp fun _ _ hf => ⟨hf.1, Refers.extend e _ _ hf.2⟩

theorem RefersBody.extend (e : t.Extends t') (hg : t'.graph = t.graph) {ty : TypeExpr} {h : Handle}
    (hr : RefersBody known t h ty) : RefersBody known t' h ty := by
  cases ty with
  | container kind spec =>
    intro ms hms
    obtain ⟨c, hc, hf⟩ := hr ms hms
    exact ⟨c, hg ▸ hc, hf.extend e⟩
  | _ => trivial

end

/-- New entries are for tags of `keys`. -/
def Translator.TagsFrom (t t' : Translator) (keys : List (Option ContainerKind × String)) : Prop :=
  ∀ key h, t'.lookup key = some h → t.lookup key = some h ∨ key ∈ keys

section
variable {t t₁ t₂ : Translator} {ks ls : List (Option ContainerKind × String)}

theorem Translator.TagsFrom.of_lookup (h : t₁.lookup = t.lookup) : t.TagsFrom t₁ ks :=
  fun key k hk => .inl (by rw [← h, hk])

theorem Translator.TagsFrom.mono (h : t.TagsFrom t₁ ks) (hs : ks ⊆ ls) : t.TagsFrom t₁ ls :=
  fun key k hk => (h key k hk).imp_right (@hs key)

theorem Translator.TagsFrom.append (h₁ : t.TagsFrom t₁ ks) (h₂ : t₁.TagsFrom t₂ ls) :
    t.TagsFrom t₂ (ks ++ ls) := by
  intro key h hk
  rcases h₂ key h hk with hk | hmem
  · exact (h₁ key h hk).imp_right (List.mem_append_left _)
  · exact .inr (List.mem_append_right _ hmem)

theorem Translator.TagsFrom.enter {key : Option ContainerKind × String} {h : Handle}
    (hl : ∀ k, t₁.lookup k = if k = key then some h else t.lookup k) : t.TagsFrom t₁ [key] := by
  intro k j hk
  rw [hl] at hk
  split at hk
  · rename_i hkey
    exact .inr (hkey ▸ List.mem_singleton_self _)
  · exact .inl hk

theorem Translator.TagsFrom.congr {t' : Translator} (h : t₁.TagsFrom t₂ ks)
    (hl : t₁.lookup = t.lookup) (hl' : t'.lookup = t₂.lookup) : t.TagsFrom t' ks := by
  intro key k hk
  rw [hl'] at hk
  exact hl ▸ h key k hk

end

namespace Translator

section
variable {t t' : Translator} {h : Handle} (a : t.Accounted)
include a

/-! ## Steps -/

theorem Invents.accounted {isAnonymous : Bool} {site : Site} {invented : Option String}
    (i : t.Invents isAnonymous site invented t') : t'.Accounted ∧ t'.Reserves invented := by
  cases i with
  | nothing => exact ⟨a, fun _ h => by cases h⟩
  | @tag base =>
    refine ⟨a.retain (.refl _) rfl (lookup_congr rfl rfl rfl) fun _ => List.mem_cons_of_mem _, ?_⟩
    rintro tag ⟨⟩
    exact ⟨List.mem_cons_self, a.unused (t.isTaken_freeTag base)⟩

theorem Reads.accounted {words : List String} (r : t.Reads words h t') :
    t'.Accounted ∧ Refers t.typedefs t' (.identifier words) h := by
  unfold Refers
  cases r with
  | typedef hk => exact ⟨a, fun k hj => by cases hk.symm.trans hj; exact ⟨rfl, hk⟩⟩
  | known hk => exact ⟨a, fun k hj => by cases hk.symm.trans hj⟩
  | new hk =>
    refine ⟨a.retain (Graph.retains_add (n := .fundamental _) rfl rfl) rfl (lookup_withGraph _)
      fun _ => id, fun k hj => ?_⟩
    cases hk.symm.trans hj

theorem Opens.accounted {sort : Option ContainerKind} {location : Option Location}
    {tag invented : Option String} (o : t.Opens sort location tag invented h t')
    (hr : t.Reserves invented) : t'.Accounted := by
  cases o with
  | untagged => exact a.addAnonymous (by simpa using hr) (by simp)
  | known => exact a
  | @entered _ tag hk =>
    refine a.enter (n := .blank sort (some tag) location) (by simp) hk (by simp) (by simp) ?_
      (by simp)
    intro k
    rw [lookup_enter, lookup_withGraph]

omit a in
theorem Opens.tagsFrom {sort : Option ContainerKind} {location : Option Location}
    {tag invented : Option String} (o : t.Opens sort location tag invented h t') :
    t.TagsFrom t' (tag.toList.map (sort, ·)) := by
  cases o with
  | untagged => exact .of_lookup (lookup_withGraph _)
  | known => exact .of_lookup rfl
  | entered => exact .enter fun k => by rw [lookup_enter, lookup_withGraph]

theorem Hoists.accounted {c : Prop} {k : Handle} (o : t.Hoists c h k t') : t'.Accounted := by
  cases o
  exact a.retain (.refl _) rfl (lookup_congr rfl rfl rfl) fun _ => id

end

end Translator

namespace Walk

open Translator

/-- From `t` the walk leaves every name accounted for, whatever it ends in, and a result
satisfies `Q`. -/
def Accounts {α : Type} (t : Translator) (w : Walk α) (Q : α → Translator → Prop) : Prop :=
  (w.run t).2.Accounted ∧ Ensures t w Q

section
variable {α β : Type} {t t' : Translator} {w : Walk α} {f : α → Walk β}
  {P Q Q' : α → Translator → Prop} {R : β → Translator → Prop}

theorem Accounts.ok (hw : Accounts t w Q) {x : α} (hrun : w.run t = (.ok x, t')) :
    t'.Accounted ∧ Q x t' := by
  obtain ⟨a, hq⟩ := hw
  rw [hrun] at a
  exact ⟨a, hq x t' hrun⟩

theorem Accounts.of_gives (h : Gives t w P) (hp : ∀ x t', P x t' → t'.Accounted ∧ Q x t') :
    Accounts t w Q := by
  refine ⟨?_, .of_gives h fun x t' hx => (hp x t' hx).2⟩
  obtain ⟨x, t', hrun, hx⟩ := h
  rw [hrun]
  exact (hp x t' hx).1

theorem Accounts.of_error {e : TranslateError} (a : t.Accounted) (h : w.run t = (.error e, t)) :
    Accounts t w Q := by
  refine ⟨?_, .of_error h⟩
  rw [h]
  exact a

theorem Accounts.of_run {r : Translator} {v : Walk α} (h : w.run t = v.run r)
    (hv : Accounts r v Q) : Accounts t w Q := by
  unfold Accounts Ensures at hv ⊢
  rwa [h]

theorem Accounts.pure {x : α} (a : t.Accounted) (hq : Q x t) : Accounts t (Pure.pure x) Q :=
  ⟨a, .pure hq⟩

theorem Accounts.throw (a : t.Accounted) (e : TranslateError) :
    Accounts t (MonadExcept.throw e : Walk α) Q :=
  ⟨a, .throw e⟩

theorem Accounts.bind (hl : Leads t w P) (hw : Accounts t w Q)
    (hf : ∀ x t₁, t₁.Sound → t.Extends t₁ → t₁.Accounted → P x t₁ → Q x t₁ → Accounts t₁ (f x) R) :
    Accounts t (w >>= f) R := by
  obtain ⟨s, e, hp⟩ := hl
  obtain ⟨a, hq⟩ := hw
  unfold Accounts Ensures
  rw [run_bind]
  cases h : w.run t with
  | mk r t₁ =>
    rw [h] at s e a hp
    cases r with
    | error err => exact ⟨a, fun _ _ hrun => by cases hrun⟩
    | ok x => exact hf x t₁ s e a (hp x rfl) (hq x t₁ h)

theorem Accounts.last (hl : Leads t w P) (hw : Accounts t w Q)
    (h : ∀ x t₁, t₁.Sound → t.Extends t₁ → P x t₁ → Q x t₁ → Q' x t₁) : Accounts t w Q' :=
  ⟨hw.1, .last hl hw.2 h⟩

theorem Accounts.weaken (hw : Accounts t w Q) (h : ∀ x t₁, Q x t₁ → Q' x t₁) : Accounts t w Q' :=
  ⟨hw.1, hw.2.weaken h⟩

theorem Accounts.adapt (hw : Accounts t w Q) (g : TranslateError → TranslateError) :
    Accounts t (ExceptT.adapt g w) Q :=
  ⟨hw.1, hw.2.adapt g⟩

theorem Accounts.get {f : Translator → Walk β} (hf : Accounts t (f t) R) :
    Accounts t (MonadState.get >>= f) R := hf

theorem Accounts.modify {f : Translator → Translator} (a : (f t).Accounted)
    {Q : PUnit → Translator → Prop} (hq : Q ⟨⟩ (f t)) : Accounts t (modify f : Walk PUnit) Q :=
  ⟨a, .modify hq⟩

end

/-! ## Steps -/

section
variable {t : Translator} (a : t.Accounted)
include a

theorem add_accounts {n : Node} (hn : n.isNamed = false) :
    Accounts t (add n) fun _ t' => t'.lookup = t.lookup := by
  refine ⟨a.retain (Graph.retains_add hn rfl) rfl (lookup_congr rfl rfl rfl) fun _ => id, ?_⟩
  intro h t' hrun
  cases hrun
  exact lookup_congr rfl rfl rfl

theorem inventTag_accounts (isAnonymous : Bool) (site : Site) :
    Accounts t (inventTag isAnonymous site) fun invented t' =>
      t'.Reserves invented ∧ t'.lookup = t.lookup :=
  .of_gives (inventTag_gives isAnonymous site) fun _ _ i =>
    ⟨(i.accounted a).1, (i.accounted a).2, i.lookup⟩

theorem identifier_accounts (words : List String) (location : Option Location) :
    Accounts t (identifier words location) fun h t' =>
      Refers t.typedefs t' (.identifier words) h ∧ t'.lookup = t.lookup := by
  obtain hg | ⟨-, hrun⟩ := identifier_cases (t := t) words location
  · exact .of_gives hg fun _ _ r => ⟨(r.accounted a).1, (r.accounted a).2, r.lookup⟩
  · exact .of_error a hrun

theorem openNode_accounts (sort : Option ContainerKind) (tag : Option String)
    {invented : Option String} (hr : t.Reserves invented) (location : Option Location) :
    Accounts t (openNode sort tag invented location) fun h t' =>
      (∀ name, tag = some name → t'.lookup (sort, name) = some h) ∧
        t.TagsFrom t' (tag.toList.map (sort, ·)) := by
  refine .of_gives (openNode_gives sort tag invented location) fun h t' o =>
    ⟨o.accounted a hr, ?_, o.tagsFrom⟩
  rintro name rfl
  exact o.lookup

theorem tryGraph_accounts {f : Graph → Except GraphError Graph}
    (hf : ∀ g, f t.graph = .ok g → t.graph.Retains g) :
    Accounts t (tryGraph f) fun _ t' => ∃ g, f t.graph = .ok g ∧ t' = { t with graph := g } := by
  unfold tryGraph
  apply Accounts.get
  cases h : f t.graph with
  | error e => exact .throw a _
  | ok g =>
    exact .modify (a.retain (hf g h) rfl (lookup_congr rfl rfl rfl) fun _ => id) ⟨g, rfl, rfl⟩

theorem hoistIf_accounts (c : Prop) [Decidable c] (h : Handle) :
    Accounts t (do
      if c then hoist h
      return h) fun k t' => k = h ∧ t'.graph = t.graph ∧ t'.lookup = t.lookup := by
  refine .of_gives (hoistIf_gives c h) fun k t' o => ⟨o.accounted a, ?_, o.graph, o.lookup⟩
  cases o
  rfl

end

/-! ## Bodies -/

section
variable {t : Translator} (a : t.Accounted)
include a

theorem fieldsOf_accounts {h : Handle} {kind : ContainerKind} {c : Container}
    (hc : t.graph.get? h = some (.container kind c)) :
    Accounts t (fieldsOf h) fun fields t' => t' = t ∧ fields = c.fields := by
  refine ⟨?_, fieldsOf_ensures hc⟩
  unfold fieldsOf
  apply (Accounts.get (R := fun _ _ => True) _).1
  split
  · exact .pure a trivial
  · exact .pure a trivial

theorem enumValues_accounts (es : List Enumerator) :
    Accounts t (liftM (enumValues es) : Walk (List EnumValue)) fun _ _ => True := by
  cases hv : enumValues es with
  | ok values => exact .pure a trivial
  | error err => exact .throw a err

theorem setValues_accounts {h : Handle} {e : Enumeration}
    (hn : t.graph.get? h = some (.enumeration e)) (values : List EnumValue)
    (location : Option Location) :
    Accounts t (setValues h values location) fun _ t' => t'.lookup = t.lookup := by
  have hb : (Node.enumeration e).Becomes
      (.enumeration { e with values, location := location <|> e.location }) := .enumeration rfl
  unfold setValues modifyGraph
  apply Accounts.modify
  · simp only [hn]
    exact a.retain (Graph.retains_set hn hb) rfl (lookup_congr rfl rfl rfl) fun _ => id
  · exact lookup_congr rfl rfl rfl

theorem setFields_accounts {h : Handle} {kind : ContainerKind} {c : Container}
    (hn : t.graph.get? h = some (.container kind c)) (fields : List Field)
    (location : Option Location) :
    Accounts t (tryGraph (·.modifyContainer h fun c =>
        { c with fields, location := location <|> c.location })) fun _ t' =>
      t'.lookup = t.lookup ∧
        ∃ c', t'.graph.get? h = some (.container kind c') ∧ c'.fields = fields := by
  refine (tryGraph_accounts a ?_).weaken ?_
  · intro g hg
    obtain ⟨kind', c', hn', rfl⟩ := Graph.modifyContainer_ok hg
    exact Graph.retains_set hn' (.container kind' rfl)
  · rintro _ t₁ ⟨g, hg, rfl⟩
    obtain ⟨kind', c', hn', rfl⟩ := Graph.modifyContainer_ok hg
    rw [hn] at hn'
    cases hn'
    exact ⟨lookup_congr rfl rfl rfl, _, Graph.get?_set_self hn _, rfl⟩

theorem enumeration_accounts (s : t.Sound) (spec : EnumSpec) {invented : Option String}
    (hr : t.Reserves invented) :
    Accounts t (enumeration spec invented) fun h t' =>
      Refers t.typedefs t' (.enumeration spec) h ∧ t.TagsFrom t' spec.tags := by
  obtain ⟨tag, es, location⟩ := spec
  unfold enumeration Refers
  refine .bind (enumNode_leads s tag invented location)
    (openNode_accounts a none tag hr location) ?_
  rintro h t₁ s₁ _ a₁ ⟨_, e, he, _⟩ ⟨hlook, htags⟩
  cases es with
  | none => exact .pure a₁ ⟨hlook, htags⟩
  | some es =>
    refine .bind (enumValues_leads s₁ es) (enumValues_accounts a₁ es) ?_
    rintro values t₂ - - a₂ rfl -
    refine .bind (setValues_leads s₁ he values location)
      (setValues_accounts a₂ he values location) ?_
    intro _ t₃ _ _ a₃ _ hl
    exact .pure a₃ ⟨fun name ht => hl ▸ hlook name ht, htags.congr rfl hl⟩

end

/-! ## Types -/

theorem definition_accounts {t : Translator} (s : t.Sound) (a : t.Accounted) (site : Site)
    {ty : TypeExpr} (tag : Option String) {w : Option String → Walk Handle}
    (hl : ∀ invented t₁, t₁.Sound → Leads t₁ (w invented) (Resolved t₁ ty))
    (hw : ∀ invented t₁, t₁.Sound → t₁.Accounted → t₁.Reserves invented →
      Accounts t₁ (w invented) fun h t' =>
        Refers t₁.typedefs t' ty h ∧ t₁.TagsFrom t' ty.tags ∧ RefersBody t₁.typedefs t' h ty) :
    Accounts t (definition site ty tag w) fun h t' =>
      Refers t.typedefs t' ty h ∧ t.TagsFrom t' ty.tags ∧ RefersBody t.typedefs t' h ty := by
  unfold definition
  refine .bind (inventTag_leads s _ site) (inventTag_accounts a _ site) ?_
  rintro invented t₁ s₁ _ a₁ h₁ ⟨hr, hlook⟩
  refine .bind (hl invented t₁ s₁) (hw invented t₁ s₁ a₁ hr) ?_
  rintro h t₂ s₂ _ a₂ ⟨h₂, hd⟩ ⟨hrefers, htags, hbody⟩
  refine .last (hoistIf_leads s₂ ty (h₂.typedefs ▸ hd))
    (hoistIf_accounts a₂ (ty.isDefinition ∧ site.position = .nested) h) ?_
  rintro h t₃ _ e₃ _ ⟨rfl, hg, hlook₃⟩
  exact ⟨h₁.typedefs ▸ hrefers.extend e₃, htags.congr hlook hlook₃,
    h₁.typedefs ▸ hbody.extend e₃ hg⟩

theorem walks_account :
    (∀ site ty t, t.Sound → t.Accounted → Accounts t (resolve site ty) fun h t' =>
      Refers t.typedefs t' ty h ∧ t.TagsFrom t' ty.tags ∧ RefersBody t.typedefs t' h ty) ∧
    (∀ name location sig t, t.Sound → t.Accounted →
      Accounts t (function name location sig) fun h t' =>
        Refers t.typedefs t' (.function sig) h ∧ t.TagsFrom t' sig.tags) ∧
    (∀ name here ds t, t.Sound → t.Accounted →
      Accounts t (arguments name here ds) fun args t' =>
        RefersParams t.typedefs t' ds args ∧ t.TagsFrom t' (tagsOfParams ds)) ∧
    (∀ kind invented spec t, t.Sound → t.Accounted → t.Reserves invented →
      Accounts t (container kind invented spec) fun h t' =>
        Refers t.typedefs t' (.container kind spec) h ∧ t.TagsFrom t' (spec.tags kind) ∧
          RefersBody t.typedefs t' h (.container kind spec)) ∧
    (∀ owner label ms t, t.Sound → t.Accounted →
      Accounts t (members owner label ms) fun fields t' =>
        RefersFields t.typedefs t' ms fields ∧ t.TagsFrom t' (tagsOfMembers ms)) := by
  refine induct ?derived ?word ?container ?enumeration ?function ?reference ?body ?signature
    ?noArgument ?argument ?noMember ?passed ?named ?spliced ?alone
  case derived =>
    intro site d target ih t s a
    rw [resolve_indirection]
    refine .bind (resolve_leads s _ target) (ih t s a) ?_
    rintro k t₁ s₁ _ a₁ ⟨hw, hd⟩ ⟨hr, htags, _⟩
    refine .last (add_leads s₁ (by simpa using hd.lt)) (add_accounts a₁ (d.isNamed_node k)) ?_
    rintro h t₂ _ e₂ ⟨hn, _⟩ hl
    refine ⟨refers_indirection.mpr ⟨k, hn, hr.extend e₂⟩, ?_, refersBody_indirection d target h⟩
    rw [Indirection.tags_type]
    exact htags.congr rfl hl
  case word =>
    intro site words t s a
    unfold resolve
    exact (identifier_accounts a words site.location).weaken fun h t₁ hq =>
      ⟨hq.1, .of_lookup hq.2, trivial⟩
  case container =>
    intro site kind spec ih t s a
    rw [resolve_container]
    exact definition_accounts s a site spec.tag
      (fun invented t₁ s₁ => container_leads s₁ kind invented spec)
      ih
  case enumeration =>
    intro site spec t s a
    rw [resolve_enumeration]
    refine definition_accounts s a site spec.tag
      (fun invented t₁ s₁ => enumeration_leads s₁ spec invented)
      fun invented t₁ s₁ a₁ hr => ?_
    exact (enumeration_accounts a₁ s₁ spec hr).weaken fun _ _ hq => ⟨hq.1, hq.2, trivial⟩
  case function =>
    intro site sig ih t s a
    unfold resolve
    exact (ih t s a).weaken fun _ _ hq => ⟨hq.1, hq.2, trivial⟩
  case reference =>
    intro kind invented tag location t s a hr
    unfold container
    refine (openNode_accounts a (some kind) tag hr location).weaken ?_
    rintro h t₁ ⟨hlook, htags⟩
    refine ⟨?_, htags, by rintro ms ⟨⟩⟩
    unfold Refers
    exact hlook
  case body =>
    intro kind invented tag ms location ih t s a hr
    unfold container
    refine .bind (containerNode_leads s kind tag invented location)
      (openNode_accounts a (some kind) tag hr location) ?_
    rintro h t₁ s₁ _ a₁ ⟨hw, c, hn, _⟩ ⟨hlook, htags⟩
    refine .of_run (run_named hn _) ?_
    refine .bind (members_leads s₁ _ _ ms) (ih _ _ t₁ s₁ a₁) ?_
    rintro fields t₂ s₂ e₂ a₂ ⟨hw₂, hlt⟩ ⟨hfields, htags₂⟩
    obtain ⟨c₂, hn₂, _⟩ := e₂.graph.container hn
    refine .bind (setFields_leads s₂ hn₂ hlt location)
      (setFields_accounts a₂ hn₂ fields location) ?_
    rintro _ t₃ s₃ e₃ a₃ _ ⟨hl, c₃, hn₃, hc₃⟩
    refine .pure a₃ ⟨?_, (htags.append htags₂).congr rfl hl, fun _ hms => ?_⟩
    · unfold Refers
      exact fun name ht => e₃.lookup (e₂.lookup (hlook name ht))
    · cases hms
      exact ⟨c₃, hn₃, hc₃ ▸ hw.typedefs ▸ hfields.extend e₃⟩
  case signature =>
    intro name location returns params variadic ihr iha t s a
    unfold function
    refine .bind (resolve_leads s _ returns) (ihr t s a) ?_
    rintro r t₁ s₁ _ a₁ ⟨hw, hd⟩ ⟨hr, htags, _⟩
    refine .bind (arguments_leads s₁ name location params) (iha t₁ s₁ a₁) ?_
    rintro args t₂ s₂ e₂ a₂ ⟨_, ha⟩ ⟨hargs, htags₂⟩
    have hlt := children_lt_of_denotes (f := ⟨name, r, args, variadic, location⟩)
      (hd.grow e₂.graph) ha
    refine .last (add_leads s₂ hlt) (add_accounts a₂ rfl) ?_
    rintro h t₃ _ e₃ ⟨hn, _⟩ hl
    refine ⟨?_, (htags.append htags₂).congr rfl hl⟩
    unfold Refers
    exact ⟨_, hn, (hr.extend e₂).extend e₃, (hw.typedefs ▸ hargs).extend e₃⟩
  case noArgument =>
    intro name here t s a
    unfold arguments RefersParams
    exact .pure a ⟨rfl, .of_lookup rfl⟩
  case argument =>
    intro name here argument type location ds iht ihd t s a
    unfold arguments RefersParams
    refine .bind (resolve_leads s _ type) (iht t s a) ?_
    rintro h t₁ s₁ _ a₁ ⟨hw, _⟩ ⟨hr, htags, _⟩
    refine .bind (arguments_leads s₁ name here ds) (ihd t₁ s₁ a₁) ?_
    rintro args t₂ s₂ e₂ a₂ _ ⟨hargs, htags₂⟩
    exact .pure a₂ ⟨⟨_, args, rfl, hr.extend e₂, hw.typedefs ▸ hargs⟩, htags.append htags₂⟩
  case noMember =>
    intro owner label t s a
    unfold members
    exact .pure a ⟨.nil, .of_lookup rfl⟩
  case passed =>
    intro owner label m ms hm ih t s a
    rw [members_passed hm]
    refine (ih t s a).weaken ?_
    rintro fields t₁ ⟨hfields, htags⟩
    refine ⟨?_, htags.mono (tagsOfMembers_subset m ms)⟩
    unfold RefersFields
    rwa [resultingFields_passed hm]
  case named =>
    intro owner label name type location ms iht ihm t s a
    unfold members
    refine .bind ((resolve_leads s _ type).adapt _) ((iht t s a).adapt _) ?_
    rintro h t₁ s₁ _ a₁ ⟨hw, _⟩ ⟨hr, htags, _⟩
    refine .bind (members_leads s₁ owner label ms) (ihm t₁ s₁ a₁) ?_
    rintro fields t₂ s₂ e₂ a₂ _ ⟨hfields, htags₂⟩
    exact .pure a₂ ⟨.cons ⟨rfl, hr.extend e₂⟩ (hw.typedefs ▸ hfields), htags.append htags₂⟩
  case spliced =>
    intro owner label kind inner place location ms ihc ihm t s a
    unfold members
    refine .bind (container_leads s kind none _) (ihc t s a (by rintro _ ⟨⟩)) ?_
    rintro h t₁ s₁ _ a₁ ⟨hw, _⟩ ⟨_, htags, hbody⟩
    obtain ⟨c, hc, hinner⟩ := hbody inner rfl
    refine .bind (fieldsOf_leads s₁ h) (fieldsOf_accounts a₁ hc) ?_
    rintro spliced t₁ s₁ - a₁ - ⟨rfl, rfl⟩
    refine .bind (members_leads s₁ owner label ms) (ihm t₁ s₁ a₁) ?_
    rintro fields t₂ s₂ e₂ a₂ _ ⟨hfields, htags₂⟩
    exact .pure a₂ ⟨List.rel_append (hinner.extend e₂) (hw.typedefs ▸ hfields), htags.append htags₂⟩
  case alone =>
    intro owner label type location ms halone iht ihm t s a
    rw [members_alone halone]
    refine .bind (resolve_leads s _ type) (iht t s a) ?_
    rintro _ t₁ s₁ _ a₁ ⟨hw, _⟩ ⟨_, htags, _⟩
    refine (ihm t₁ s₁ a₁).weaken ?_
    rintro fields t₂ ⟨hfields, htags₂⟩
    refine ⟨?_, htags.append htags₂⟩
    unfold RefersFields
    rw [resultingFields_alone halone]
    exact hw.typedefs ▸ hfields

end Walk

end CythonDecls
