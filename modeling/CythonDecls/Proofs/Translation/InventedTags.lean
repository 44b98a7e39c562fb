import CythonDecls.Proofs.Translation.NameTables

/-!
# Invented tags

A nested definition without a tag gets the first one that is free, and its node is
the next that is added. From there on the tag is taken, so no other definition gets
it, and what declares it is read later and has a later node. Walks that fail leave
it so as well.
-/

namespace CythonDecls

namespace Translator

def Free (t : Translator) (tag : String) : Prop :=
  tag ∉ t.invented ∧ ∀ sort, t.lookup (sort, tag) = none

/-- A node has the tag without being its entry. -/
def Made (t : Translator) (tag : String) : Prop :=
  ∃ h n, t.graph.get? h = some n ∧ n.tag? = some tag ∧ ¬t.Listed h

/-- Entries that are new in `t'` have nodes that are new. -/
def Enters (t t' : Translator) : Prop :=
  ∀ key h, t'.lookup key = some h → t.lookup key = some h ∨ t.graph.size ≤ h.index

/-- From `t` to `t'` tags were invented that were free, each for a node that is there.
So is one for the tag that was pending. -/
structure Coined (t t' : Translator) (pending : Option String) : Prop where
  extend : t.Extends t'
  entries : t.Enters t'
  tags : ∃ new, t'.invented = new ++ t.invented ∧ new.Nodup ∧ ∀ tag ∈ new, t.Free tag ∧ t'.Made tag
  made : ∀ tag, pending = some tag → t'.Made tag

section
variable {t t₁ t₂ : Translator} {tag : String} {pending : Option String}

theorem isTaken_eq_false_iff : t.isTaken tag = false ↔ t.Free tag := by
  have hsorts : (∀ sort, t.lookup (sort, tag) = none) ↔
      t.structs.find? tag = none ∧ t.unions.find? tag = none ∧ t.enums.find? tag = none := by
    refine ⟨fun h => ⟨h (some .struct), h (some .union), h none⟩, fun h sort => ?_⟩
    rcases sort with _ | _ | _
    · exact h.2.2
    · exact h.1
    · exact h.2.1
  simp [Free, hsorts, isTaken, Table.contains, and_assoc]

theorem Free.of_extends (h : t₁.Free tag) (e : t.Extends t₁)
    (hi : ∀ tag ∈ t.invented, tag ∈ t₁.invented) : t.Free tag := by
  refine ⟨fun hmem => h.1 (hi tag hmem), fun sort => ?_⟩
  cases hk : t.lookup (sort, tag) with
  | none => rfl
  | some k => cases (h.2 sort).symm.trans (e.lookup hk)

theorem Enters.of_lookup (hl : t₁.lookup = t.lookup) : t.Enters t₁ := fun _ _ hk => .inl (hl ▸ hk)

theorem Enters.of_next (key : Option ContainerKind × String)
    (hl : ∀ k, t₁.lookup k = if k = key then some t.graph.next else t.lookup k) : t.Enters t₁ := by
  intro k h hk
  rw [hl] at hk
  split at hk
  · cases hk
    exact .inr (Nat.le_refl _)
  · exact .inl hk

theorem Enters.trans (h₁ : t.Enters t₁) (hg : t.graph.Grows t₁.graph) (h₂ : t₁.Enters t₂) :
    t.Enters t₂ := by
  intro key h hk
  obtain hk | hnew := h₂ key h hk
  · exact h₁ key h hk
  · refine .inr (Nat.not_lt.mp fun hlt => ?_)
    exact absurd (hg.lt hlt) (Nat.not_lt.mpr hnew)

theorem Made.keep (hm : t.Made tag) (e : t.Extends t₁) (hentries : t.Enters t₁) : t₁.Made tag := by
  obtain ⟨h, n, hn, ht, hl⟩ := hm
  obtain ⟨n', hn', hb⟩ := e.graph h n hn
  refine ⟨h, n', hn', ?_, fun hlisted => ?_⟩
  · rw [Node.tag?_eq, hb.key?, ← Node.tag?_eq, ht]
  · obtain ⟨key, hk⟩ := hlisted
    obtain hk | hnew := hentries key h hk
    · exact hl ⟨key, hk⟩
    · exact absurd (Graph.lt_of_get? hn) (Nat.not_lt.mpr hnew)

/-! ## Changes -/

theorem Coined.of_invented (e : t.Extends t₁) (hentries : t.Enters t₁)
    (hi : t₁.invented = t.invented) (hmade : ∀ tag, pending = some tag → t₁.Made tag) :
    t.Coined t₁ pending :=
  ⟨e, hentries, ⟨[], hi, .nil, nofun⟩, hmade⟩

theorem Coined.of_entries (e : t.Extends t₁) (hentries : t.Enters t₁)
    (hi : t₁.invented = t.invented) : t.Coined t₁ none :=
  .of_invented e hentries hi nofun

theorem Coined.of_lookup (e : t.Extends t₁) (hl : t₁.lookup = t.lookup)
    (hi : t₁.invented = t.invented) : t.Coined t₁ none :=
  .of_entries e (.of_lookup hl) hi

theorem Coined.refl (t : Translator) : t.Coined t none := .of_lookup (.refl t) rfl rfl

theorem Coined.trans (h₁ : t.Coined t₁ pending) (h₂ : t₁.Coined t₂ none) : t.Coined t₂ pending := by
  obtain ⟨new₁, hi₁, hnodup₁, hnew₁⟩ := h₁.tags
  obtain ⟨new₂, hi₂, hnodup₂, hnew₂⟩ := h₂.tags
  have hkeep {tag : String} (hm : t₁.Made tag) : t₂.Made tag := hm.keep h₂.extend h₂.entries
  refine ⟨h₁.extend.trans h₂.extend, h₁.entries.trans h₁.extend.graph h₂.entries,
    ⟨new₂ ++ new₁, ?_, ?_, ?_⟩, fun tag ht => hkeep (h₁.made tag ht)⟩
  · rw [hi₂, hi₁, List.append_assoc]
  · -- what was invented later was free, and so it is none of the tags from before
    refine List.nodup_append.mpr ⟨hnodup₂, hnodup₁, fun tag htag tag' htag' he => ?_⟩
    have hfree := (hnew₂ tag htag).1.1
    rw [hi₁, List.mem_append, not_or] at hfree
    exact hfree.1 (he ▸ htag')
  · intro tag htag
    obtain htag | htag := List.mem_append.mp htag
    · obtain ⟨hfree, hmade⟩ := hnew₂ tag htag
      exact ⟨hfree.of_extends h₁.extend fun _ hmem => hi₁ ▸ List.mem_append_right _ hmem, hmade⟩
    · exact ⟨(hnew₁ tag htag).1, hkeep (hnew₁ tag htag).2⟩

theorem Coined.after_invented (hfree : t.Free tag)
    (h : Coined { t with invented := tag :: t.invented } t₁ (some tag)) : t.Coined t₁ none := by
  have e : t.Extends { t with invented := tag :: t.invented } := by
    refine ⟨.refl _, fun _ _ => id, fun kind => ?_, fun _ _ => id, fun _ _ => id⟩
    cases kind <;> exact fun _ _ => id
  have hentries : t.Enters { t with invented := tag :: t.invented } :=
    .of_lookup (lookup_congr rfl rfl rfl)
  obtain ⟨new, hi, hnodup, hnew⟩ := h.tags
  have hmem {tag' : String} (htag : tag' ∈ new) : tag' ∉ tag :: t.invented := (hnew tag' htag).1.1
  refine ⟨e.trans h.extend, hentries.trans e.graph h.entries,
    ⟨new ++ [tag], by simp [hi], ?_, ?_⟩, nofun⟩
  · refine List.nodup_append.mpr ⟨hnodup, List.nodup_singleton _, fun tag' htag last hlast he => ?_⟩
    rw [List.mem_singleton] at hlast
    exact hmem htag (by rw [he, hlast]; exact List.mem_cons_self)
  · intro tag' htag
    obtain htag | htag := List.mem_append.mp htag
    · obtain ⟨hfree', hmade⟩ := hnew tag' htag
      exact ⟨hfree'.of_extends e fun _ => List.mem_cons_of_mem _, hmade⟩
    · rw [List.mem_singleton.mp htag]
      exact ⟨hfree, h.made tag rfl⟩

/-! ## Nodes of tags -/

theorem Sound.made_add (s : t.Sound) {n : Node} (hn : n.tag? = some tag) :
    Made { t with graph := t.graph.add n } tag := by
  refine ⟨t.graph.next, n, Graph.get?_add_next _ n, hn, ?_⟩
  rintro ⟨key, hk⟩
  rw [lookup_withGraph] at hk
  exact lookup_ne_next s key hk

theorem Opens.coined {sort : Option ContainerKind} {location : Option Location}
    {tag invented : Option String} {h : Handle} (o : t.Opens sort location tag invented h t₁)
    (s : t.Sound) (ht : tag.isSome → invented = none) : t.Coined t₁ invented := by
  have e := o.extends
  cases o with
  | untagged =>
    exact .of_invented e (.of_lookup (lookup_withGraph _)) rfl
      fun _ hi => s.made_add (by simpa using hi)
  | known =>
    obtain rfl := ht rfl
    exact .refl t
  | @entered _ tag _ =>
    obtain rfl := ht rfl
    refine .of_entries e (.of_next (sort, tag) fun k => ?_) (by simp)
    rw [lookup_enter, lookup_withGraph]

end

end Translator

namespace Walk

open Translator

/-- Whatever the walk from `t` ends in, it invented tags that were free. -/
def Coins {α : Type} (pending : Option String) (t : Translator) (w : Walk α) : Prop :=
  t.Coined (w.run t).2 pending

section
variable {α β : Type} {t : Translator} {w : Walk α} {f : α → Walk β} {pending : Option String}
  {P : α → Translator → Prop}

theorem Coins.of_gives (h : Gives t w P) (hc : ∀ x t', P x t' → t.Coined t' pending) :
    Coins pending t w := by
  obtain ⟨x, t', hrun, hx⟩ := h
  unfold Coins
  rw [hrun]
  exact hc x t' hx

theorem Coins.congr {v : Walk α} (h : w.run t = v.run t) (hv : Coins pending t v) :
    Coins pending t w := by
  unfold Coins at hv ⊢
  rwa [h]

theorem Coins.pure {x : α} : Coins none t (Pure.pure x : Walk α) := .refl t

theorem Coins.bind (hl : Leads t w P) (hw : Coins pending t w)
    (hf : ∀ x t₁, t₁.Sound → t.Extends t₁ → P x t₁ → Coins none t₁ (f x)) :
    Coins pending t (w >>= f) := by
  obtain ⟨s, e, hp⟩ := hl
  unfold Coins at hw ⊢
  rw [run_bind]
  cases h : w.run t with
  | mk r t₁ =>
    rw [h] at s e hp hw
    cases r with
    | error err => exact hw
    | ok x => exact hw.trans (hf x t₁ s e (hp x rfl))

theorem Coins.get {f : Translator → Walk β} (hf : Coins pending t (f t)) :
    Coins pending t (MonadState.get >>= f) := hf

theorem Coins.of_run {r : Translator} {v : Walk α} (h : w.run t = v.run r)
    (e : t.Extends r) (hl : r.lookup = t.lookup) (hi : r.invented = t.invented)
    (hv : Coins none r v) : Coins none t w := by
  unfold Coins at hv ⊢
  rw [h]
  exact (Coined.of_lookup e hl hi).trans hv

/-- The walk invents no tag and declares none. -/
def Quiet {α : Type} (t : Translator) (w : Walk α) : Prop :=
  (w.run t).2.lookup = t.lookup ∧ (w.run t).2.invented = t.invented

theorem Quiet.of_gives (h : Gives t w P)
    (hq : ∀ x t', P x t' → t'.lookup = t.lookup ∧ t'.invented = t.invented) : Quiet t w := by
  obtain ⟨x, t', hrun, hx⟩ := h
  unfold Quiet
  rw [hrun]
  exact hq x t' hx

theorem Quiet.get {f : Translator → Walk β} (hf : Quiet t (f t)) :
    Quiet t (MonadState.get >>= f) := hf

theorem Coins.quiet (hl : Leads t w P) (hw : Quiet t w) : Coins none t w :=
  .of_lookup hl.2.1 hw.1 hw.2

theorem Coins.behind (hl : Leads t w P) (hw : Quiet t w)
    (hf : ∀ x t₁, t₁.Sound → t.Extends t₁ → P x t₁ → Coins none t₁ (f x)) :
    Coins none t (w >>= f) :=
  .bind hl (.quiet hl hw) hf

end

/-! ## Steps -/

section
variable {t : Translator}

theorem tryGraph_quiet (f : Graph → Except GraphError Graph) : Quiet t (tryGraph f) := by
  unfold tryGraph
  apply Quiet.get
  cases f t.graph with
  | ok g => exact ⟨lookup_congr rfl rfl rfl, rfl⟩
  | error e => exact ⟨rfl, rfl⟩

theorem hoistIf_quiet (c : Prop) [Decidable c] (h : Handle) : Quiet t (do
    if c then hoist h
    return h) := by
  refine .of_gives (hoistIf_gives c h) fun _ _ o => ⟨o.lookup, ?_⟩
  cases o
  rfl

theorem fieldsOf_quiet (h : Handle) : Quiet t (fieldsOf h) := by
  unfold fieldsOf
  apply Quiet.get
  split <;> exact ⟨rfl, rfl⟩

theorem enumValues_quiet (es : List Enumerator) :
    Quiet t (liftM (enumValues es) : Walk (List EnumValue)) := by
  cases hv : enumValues es <;> exact ⟨rfl, rfl⟩

theorem identifier_quiet (words : List String) (location : Option Location) :
    Quiet t (identifier words location) := by
  obtain hg | ⟨-, hrun⟩ := identifier_cases (t := t) words location
  · refine .of_gives hg fun _ _ r => ⟨r.lookup, ?_⟩
    cases r <;> rfl
  · unfold Quiet
    rw [hrun]
    exact ⟨rfl, rfl⟩

end

section
variable {t : Translator} (s : t.Sound)
include s

theorem add_coins {n : Node} (hc : ∀ k ∈ n.children, k.index < t.graph.size) :
    Coins none t (add n) :=
  .quiet (add_leads s hc) ⟨lookup_congr rfl rfl rfl, rfl⟩

theorem inventTag_coins {β : Type} {f : Option String → Walk β} (defines : Bool)
    (tag : Option String)
    (site : Site) (hf : ∀ invented t₁, t₁.Sound → (tag.isSome → invented = none) →
      Coins invented t₁ (f invented)) :
    Coins none t (inventTag (defines && tag.isNone) site >>= f) := by
  obtain ⟨invented, t₁, hrun, i⟩ := inventTag_gives (t := t) (defines && tag.isNone) site
  unfold Coins
  rw [run_bind_of_ok hrun]
  have s₁ := i.sound s
  cases i with
  | nothing => exact hf none t s₁ fun _ => rfl
  | @tag base _ ha =>
    have hfree : t.Free (t.freeTag base) := isTaken_eq_false_iff.mp (t.isTaken_freeTag base)
    refine Coined.after_invented hfree (hf _ _ s₁ fun htag => ?_)
    simp [Option.isSome_iff_ne_none.mp htag] at ha

/-! ## Nodes of tags -/

theorem openNode_coins (sort : Option ContainerKind) {tag invented : Option String}
    (ht : tag.isSome → invented = none) (location : Option Location) :
    Coins invented t (openNode sort tag invented location) :=
  .of_gives (openNode_gives sort tag invented location) fun _ _ o => o.coined s ht

theorem enumeration_coins (spec : EnumSpec) {invented : Option String}
    (ht : spec.tag.isSome → invented = none) : Coins invented t (enumeration spec invented) := by
  obtain ⟨tag, es, location⟩ := spec
  unfold enumeration
  refine .bind (enumNode_leads s tag invented location) (openNode_coins s none ht location) ?_
  intro h t₁ s₁ _ hn
  obtain ⟨_, e, he, _⟩ := hn
  cases es with
  | none => exact .pure
  | some es =>
    refine .behind (enumValues_leads s₁ es) (enumValues_quiet es) ?_
    intro values t₂ s₂ _ ht₂
    subst ht₂
    exact .behind (setValues_leads s₁ he values location) ⟨lookup_congr rfl rfl rfl, rfl⟩
      fun _ _ _ _ _ => .pure

end

/-! ## Types -/

theorem definition_coins {t : Translator} (s : t.Sound) (site : Site) {ty : TypeExpr}
    (tag : Option String) {w : Option String → Walk Handle}
    (hl : ∀ invented t₁, t₁.Sound → Leads t₁ (w invented) (Resolved t₁ ty))
    (hw : ∀ invented t₁, t₁.Sound → (tag.isSome → invented = none) →
      Coins invented t₁ (w invented)) : Coins none t (definition site ty tag w) := by
  refine inventTag_coins s _ tag site ?_
  intro invented t₁ s₁ htag
  refine .bind (hl invented t₁ s₁) (hw invented t₁ s₁ htag) ?_
  rintro h t₂ s₂ _ ⟨h₂, hd⟩
  exact .quiet (hoistIf_leads s₂ ty (h₂.typedefs ▸ hd)) (hoistIf_quiet _ h)

theorem walks_coin :
    (∀ site ty t, t.Sound → Coins none t (resolve site ty)) ∧
    (∀ name location sig t, t.Sound → Coins none t (function name location sig)) ∧
    (∀ name here ds t, t.Sound → Coins none t (arguments name here ds)) ∧
    (∀ kind invented spec t, t.Sound → (spec.tag.isSome → invented = none) →
      Coins invented t (container kind invented spec)) ∧
    (∀ owner label ms t, t.Sound → Coins none t (members owner label ms)) := by
  -- the induction follows the walks; between a tag and its node there is no other step
  refine induct ?derived ?word ?container ?enumeration ?function ?reference ?body ?signature
    ?noArgument ?argument ?noMember ?passed ?named ?spliced ?alone
  case derived =>
    intro site d target ih t s
    rw [resolve_indirection]
    refine .bind (resolve_leads s _ target) (ih t s) ?_
    intro k t₁ s₁ _ hq
    exact add_coins s₁ (by simpa using hq.2.lt)
  case word =>
    intro site words t s
    unfold resolve
    exact .quiet (identifier_leads s words site.location) (identifier_quiet words site.location)
  case container =>
    intro site kind spec ih t s
    rw [resolve_container]
    exact definition_coins s site spec.tag
      (fun invented t₁ s₁ => container_leads s₁ kind invented spec) ih
  case enumeration =>
    intro site spec t s
    rw [resolve_enumeration]
    exact definition_coins s site spec.tag
      (fun invented t₁ s₁ => enumeration_leads s₁ spec invented)
      fun invented t₁ s₁ => enumeration_coins s₁ spec
  case function =>
    intro site sig ih t s
    unfold resolve
    exact ih t s
  case reference =>
    intro kind invented tag location t s ht
    unfold container
    exact openNode_coins s (some kind) ht location
  case body =>
    intro kind invented tag ms location ih t s ht
    unfold container
    refine .bind (containerNode_leads s kind tag invented location)
      (openNode_coins s (some kind) ht location) ?_
    intro h t₁ s₁ _ hq
    obtain ⟨hw, c, hn, _⟩ := hq
    refine .congr (run_named hn _) ?_
    refine .bind (members_leads s₁ _ _ ms) (ih _ _ t₁ s₁) ?_
    intro fields t₂ s₂ e₂ hq₂
    obtain ⟨c₂, hn₂, _⟩ := e₂.graph.container hn
    exact .behind (setFields_leads s₂ hn₂ hq₂.2 location) (tryGraph_quiet _) fun _ _ _ _ _ => .pure
  case signature =>
    intro name location returns params variadic ihr iha t s
    unfold function
    refine .bind (resolve_leads s _ returns) (ihr t s) ?_
    intro r t₁ s₁ _ hr
    refine .bind (arguments_leads s₁ name location params) (iha t₁ s₁) ?_
    intro args t₂ s₂ e₂ ha
    exact add_coins s₂ (children_lt_of_denotes (hr.2.grow e₂.graph) ha.2)
  case noArgument =>
    intro name here t s
    unfold arguments
    exact .pure
  case argument =>
    intro name here argument type location ds iht ihd t s
    unfold arguments
    refine .bind (resolve_leads s _ type) (iht t s) ?_
    intro h t₁ s₁ _ _
    exact .bind (arguments_leads s₁ name here ds) (ihd t₁ s₁) fun _ _ _ _ _ => .pure
  case noMember =>
    intro owner label t s
    unfold members
    exact .pure
  case passed =>
    intro owner label m ms hm ih t s
    rw [members_passed hm]
    exact ih t s
  case named =>
    intro owner label name type location ms iht ihm t s
    unfold members
    refine .bind ((resolve_leads s _ type).adapt _) (iht t s) ?_
    intro h t₁ s₁ _ _
    exact .bind (members_leads s₁ owner label ms) (ihm t₁ s₁) fun _ _ _ _ _ => .pure
  case spliced =>
    intro owner label kind inner place location ms ihc ihm t s
    unfold members
    refine .bind (container_leads s kind none _) (ihc t s fun _ => rfl) ?_
    intro h t₁ s₁ _ _
    refine .behind (fieldsOf_leads s₁ h) (fieldsOf_quiet h) ?_
    intro spliced t₂ s₂ _ _
    exact .bind (members_leads s₂ owner label ms) (ihm t₂ s₂) fun _ _ _ _ _ => .pure
  case alone =>
    intro owner label type location ms halone iht ihm t s
    rw [members_alone halone]
    exact .bind (resolve_leads s _ type) (iht t s) fun _ t₁ s₁ _ _ => ihm t₁ s₁

/-! ## Items -/

section
variable {t : Translator}

theorem place_coins (h : Handle) : Coins none t (place h) := by
  have e : t.Extends ((place h).run t).2 := by
    refine ⟨.refl t.graph, fun _ _ => id, fun kind => ?_, fun _ _ => id, fun _ _ => id⟩
    cases kind <;> exact fun _ _ => id
  exact .of_lookup e (lookup_congr rfl rfl rfl) rfl

theorem placeTagged_coins (h : Handle) (defines : Bool) : Coins none t (placeTagged h defines) := by
  cases defines with
  | false => exact place_coins h
  | true =>
    exact .of_run (r := { t with graph := t.graph.mapModule (·.remove h) }) rfl
      (.withGraph (.refl t.graph)) (lookup_congr rfl rfl rfl) rfl (place_coins h)

end

section
variable {t : Translator} (s : t.Sound)
include s

theorem typedef_coins (d : TypedefDecl) : Coins none t (typedef d) := by
  cases hf : t.typedefs.find? d.name with
  | some h =>
    exact .of_run (v := Pure.pure h) (typedef_known d hf) (.refl t) rfl rfl .pure
  | none =>
    have s₁ := s.withTypedef d
    refine .of_run (typedef_new d hf) (.withTypedef d hf) (lookup_congr rfl rfl rfl) rfl ?_
    refine .bind (resolve_leads s₁ _ d.type) (walks_coin.1 _ d.type _ s₁) ?_
    intro target t₂ s₂ _ hq
    exact .behind (assignTarget_leads s₂ hq.2.lt) (tryGraph_quiet _) fun _ _ _ _ _ => .pure

theorem declare_coins (name : String) (type : TypeExpr) (location : Option Location) :
    Coins none t (declare name type location) := by
  by_cases hty : ∃ sig, type = .function sig
  · obtain ⟨sig, rfl⟩ := hty
    unfold declare
    apply Coins.get
    split
    · exact .pure
    · rename_i hnew
      refine .bind (function_leads s name location sig) (walks_coin.2.1 name location sig t s) ?_
      intro h t₁ s₁ _ hq
      obtain ⟨hw, f, hn, rfl⟩ := hq
      have hknown : t.functions.find? f.name = none := by
        simpa [Table.contains] using hnew
      have e : t₁.Extends { t₁ with functions := t₁.functions.insert f.name h } :=
        .enterFunction (hw.functions ▸ hknown)
      exact .of_run (r := { t₁ with functions := t₁.functions.insert f.name h }) rfl e
        (lookup_congr rfl rfl rfl) rfl (place_coins h)
  · rw [declare_variable name location fun sig he => hty ⟨sig, he⟩]
    refine .bind (resolve_leads s _ type) (walks_coin.1 _ type t s) ?_
    intro h t₁ s₁ _ hq
    have hc : ∀ k ∈ (Node.object ⟨name, h, location⟩).children, k.index < t₁.graph.size := by
      simpa [Node.children] using hq.2.lt
    exact .bind (add_leads s₁ hc) (add_coins s₁ hc) fun v _ _ _ _ => place_coins v

theorem item_coins (i : Item) : Coins none t (item i) := by
  cases i with
  | typedef d => exact .bind (typedef_leads s d) (typedef_coins s d) fun h _ _ _ _ => place_coins h
  | container kind spec =>
    have hw := walks_coin.2.2.2.1 kind none spec t s fun _ => rfl
    exact .bind (container_leads s kind none spec) hw fun h _ _ _ _ => placeTagged_coins h _
  | enumeration spec =>
    have hw := enumeration_coins s spec fun _ => rfl
    exact .bind (enumeration_leads s spec none) hw fun h _ _ _ _ => placeTagged_coins h _
  | declaration d =>
    obtain ⟨_ | name, type, location⟩ := d
    · exact .pure
    · exact declare_coins s name type location
  | ignored what => exact .pure

theorem items_coin (is : List Item) : Coins none t (is.forM item) := by
  induction is generalizing t with
  | nil => exact .pure
  | cons i is ih => exact .bind (item_leads s i) (item_coins s i) fun _ t₁ s₁ _ _ => ih s₁

end

end Walk

namespace Translator

section
variable {t : Translator}

theorem Coined.feedAll (s : t.Sound) (us : List SourceUnit) : t.Coined (t.feedAll us) none := by
  induction us generalizing t with
  | nil => exact .refl t
  | cons u us ih =>
    have hu : t.Coined (t.feed u).2 none := Walk.items_coin s u.items
    exact hu.trans (ih (s.feed u).1)

theorem Made.first {tag : String} (hm : t.Made tag) (s : t.Sound) (a : t.Accounted) :
    ∃ h n, t.graph.get? h = some n ∧ n.tag? = some tag ∧
      ∀ key k, t.lookup key = some k → key.2 = tag → h.index < k.index := by
  obtain ⟨h, n, hn, ht, hl⟩ := hm
  refine ⟨h, n, hn, ht, fun key k hk hkey => ?_⟩
  obtain ⟨m, hm, hmk⟩ := s.lookup hk
  have hmt : m.tag? = some tag := by rw [Node.tag?_eq, hmk, ← hkey]; rfl
  obtain rfl | hlater := a.alone h k n m tag hn hm ht hmt hl
  · exact absurd ⟨key, hk⟩ hl
  · exact hlater.2

end

instance (t : Translator) (tag : String) : Decidable (t.Free tag) :=
  decidable_of_iff _ isTaken_eq_false_iff

/-- Inventing a tag for a named place finds the first candidate that is free, and keeps it.
So over any units the invented tags are distinct, none was declared by the units before,
and the node of each is there before any declaration of the tag. -/
theorem invented_tags :
    (∀ (t : Translator) (name : String) (owner : Option String) (location : Option Location), ∃ n,
      let base := owner.elim ("__" ++ name) fun owner => "__" ++ owner ++ "_" ++ name
      let tag := candidate base n
      (Walk.inventTag true ⟨some name, owner, location, .nested⟩).run t =
          (.ok (some tag), { t with invented := tag :: t.invented }) ∧
        t.Free tag ∧ ∀ m < n, ¬t.Free (candidate base m)) ∧
    ∀ us : List SourceUnit,
      (start.feedAll us).invented.Nodup ∧
      (∀ tag ∈ (start.feedAll us).invented, ∃ h n,
        (start.feedAll us).graph.get? h = some n ∧ n.tag? = some tag ∧
          ∀ key k, (start.feedAll us).lookup key = some k → key.2 = tag → h.index < k.index) ∧
      ∀ vs, ∃ new, (start.feedAll (us ++ vs)).invented = new ++ (start.feedAll us).invented ∧
        ∀ tag ∈ new, (start.feedAll us).Free tag := by
  constructor
  · intro t name owner location
    let base := owner.elim ("__" ++ name) fun owner => "__" ++ owner ++ "_" ++ name
    obtain ⟨n, he, hfree, htaken⟩ := t.freeTag_first base
    have hrun : (Walk.inventTag true ⟨some name, owner, location, .nested⟩).run t =
        (.ok (some (t.freeTag base)), { t with invented := t.freeTag base :: t.invented }) := by
      cases owner <;> rfl
    refine ⟨n, by rw [hrun, he], isTaken_eq_false_iff.mp hfree, fun m hm hno => ?_⟩
    cases (htaken m hm).symm.trans (isTaken_eq_false_iff.mpr hno)
  · intro us
    have s := (Sound.start.feedAll us).1
    have a := Accounted.start.feedAll .start us
    obtain ⟨new, hi, hnodup, hnew⟩ := (Coined.feedAll .start us).tags
    rw [show start.invented = [] from rfl, List.append_nil] at hi
    refine ⟨hi ▸ hnodup, fun tag htag => ((hnew tag (hi ▸ htag)).2).first s a, fun vs => ?_⟩
    obtain ⟨new, hi, -, hnew⟩ := (Coined.feedAll s vs).tags
    refine ⟨new, ?_, fun tag htag => (hnew tag htag).1⟩
    rw [← hi, feedAll, List.foldl_append]
    rfl

end Translator

namespace Sample

/-- `struct __A_p { int b; }` and `struct A { struct { int a; } *p; }`. -/
def claimed : SourceUnit := ⟨"early.h", [
  .container .struct (.body (some "__A_p") [.named "b" (.word "int")]),
  .container .struct (.body (some "A")
    [.named "p" (.pointer (.container .struct (.body none [.named "a" (.word "int")])))])]⟩

end Sample

/-- The anonymous struct becomes `__A_p_2`, and one more of that name would become `__A_p_3`. -/
theorem invented_tags_claimed :
    let t := Translator.start.feedAll [Sample.claimed]
    t.invented = ["__A_p_2"] ∧
      (∃ h n, t.graph.get? h = some n ∧ n.tag? = some "__A_p_2" ∧
        ∀ key k, t.lookup key = some k → key.2 = "__A_p_2" → h.index < k.index) ∧
      ((Walk.inventTag true ⟨some "p", some "A", none, .nested⟩).run t).1 =
        .ok (some "__A_p_3") := by
  intro t
  have hinvented : t.invented = ["__A_p_2"] := by decide +kernel
  obtain ⟨n, hrun, hfree, hfirst⟩ := Translator.invented_tags.1 t "p" (some "A") none
  have hn : n = 2 := by
    have h0 : n ≠ 0 := fun he => absurd (he ▸ hfree) (by decide +kernel)
    have h1 : n ≠ 1 := fun he => absurd (he ▸ hfree) (by decide +kernel)
    have h2 : ¬2 < n := fun hlt => hfirst 2 hlt (by decide +kernel)
    omega
  refine ⟨hinvented, ?_, ?_⟩
  · exact (Translator.invented_tags.2 [Sample.claimed]).2.1 "__A_p_2" (by rw [hinvented]; decide)
  · rw [hrun, hn]
    decide +kernel

end CythonDecls
