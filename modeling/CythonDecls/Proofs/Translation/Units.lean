import CythonDecls.Proofs.Translation.Entries
import Mathlib.Data.List.Flatten

/-!
# What a unit leaves behind

A unit that is read to its end leaves one entry for each item that was not
passed over. What an entry says of the graph holds to the end, as bodies that
come later are written elsewhere. Where every name is declared once, nothing
with a body is passed over.
-/

namespace CythonDecls

namespace Entry

/-- The typedefs that the types of an item are looked up in. -/
def typedefs (e : Entry) : Table String Handle :=
  e.item.typedefName?.elim e.known (e.known.insert · e.node)

/-- What an entry says of the graph. -/
structure Filed (e : Entry) (g : Graph) : Prop where
  declares : DeclaresAt e.typedefs g e.node e.item
  placed : ∀ p ∈ e.bodies, PlacedAt g e.bodies e.hoisted e.node p
  nested : ∀ h ∈ e.hoisted, ∃ b, b.place = .nested ∧ (b, h) ∈ e.bodies
  node : e.node ∈ g.module.items
  hoisted : ∀ h ∈ e.hoisted, h ∈ g.module.items
  tables : ∀ p ∈ e.bodies, BodyAt e.typedefs g p.2 p.1

theorem Filed.keep {e : Entry} {g g' : Graph} (h : e.Filed g) (hg : g.Grows g')
    (hkept : ∀ p ∈ e.bodies, g'.get? p.2 = g.get? p.2)
    (hitems : ∀ k ∈ g.module.items, k ∈ g'.module.items) : e.Filed g' where
  declares := DeclaresAt.grow h.declares hg
  placed p hp := by
    have hat := h.placed p hp
    unfold PlacedAt at hat ⊢
    split at hat
    · exact hat
    · obtain ⟨d, hd, ht⟩ := hat
      obtain ⟨n, hn, hb⟩ := hg _ _ hd
      cases hb with
      | refl => exact ⟨d, hn, ht⟩
      | typedef _ hnone =>
        rw [ht] at hnone
        cases hnone
    · obtain ⟨q, hq, hs, kind, c, hc, hf⟩ := hat
      exact ⟨q, hq, hs, kind, c, (hkept q hq).trans hc, hf⟩
    · trivial
    · exact ⟨hat.1, fun kind c hc => hat.2 kind c ((hkept p hp).symm.trans hc)⟩
  nested := h.nested
  node := hitems _ h.node
  hoisted k hk := hitems _ (h.hoisted k hk)
  tables p hp := (h.tables p hp).grow hg fun _ hn => (hkept p hp).trans hn

namespace Made

variable {e : Entry} {t t' : Translator}

theorem typedefs_eq (h : e.Made t t') : t'.typedefs = e.typedefs := by
  rw [h.typedefs, ← h.known]
  rfl

theorem mem_items (h : e.Made t t') {k : Handle} :
    k ∈ t'.graph.module.items ↔ k ∈ t.graph.module.items ∨ k = e.node ∨ k ∈ e.hoisted := by
  have hbase : k ∈ (if e.item.defines then t.graph.module.remove e.node
      else t.graph.module).items ∨ k = e.node ↔ k ∈ t.graph.module.items ∨ k = e.node := by
    by_cases hk : k = e.node
    · simp [hk]
    · simp only [hk, or_false]
      split
      · exact ⟨Module.mem_of_mem_remove, Module.mem_remove_of_ne hk⟩
      · rfl
  rw [h.module, Module.mem_push, Module.mem_pushAll, or_right_comm, hbase]
  simp only [List.mem_filter, decide_eq_true_eq]
  tauto

theorem nodup (h : e.Made t t') (hn : t.graph.module.items.Nodup) :
    t'.graph.module.items.Nodup := by
  rw [h.module]
  refine Module.nodup_push (Module.nodup_pushAll ?_)
  split
  · exact Module.nodup_remove hn
  · exact hn

theorem filed (h : e.Made t t') : e.Filed t'.graph where
  declares := h.typedefs_eq ▸ h.declares
  placed := h.placed
  nested := h.nested
  node := h.mem_items.mpr (.inr (.inl rfl))
  hoisted _ hk := h.mem_items.mpr (.inr (.inr hk))
  tables := h.typedefs_eq ▸ h.tables

theorem typedefs_mem (h : e.Made t t')
    (hitems : ∀ name k, t.typedefs.find? name = some k → k ∈ t.graph.module.items) (name : String)
    (k : Handle) (hk : t'.typedefs.find? name = some k) : k ∈ t'.graph.module.items := by
  rw [h.mem_items]
  rw [h.typedefs] at hk
  cases hname : e.item.typedefName? with
  | none =>
    rw [hname] at hk
    exact .inl (hitems name k hk)
  | some declared =>
    rw [hname] at hk
    simp only [Option.elim_some, Table.find?_insert] at hk
    split at hk
    · cases hk
      exact .inr (.inl rfl)
    · exact .inl (hitems name k hk)

end Made

end Entry

/-! ## Items in a row -/

/-- Reading items leads from `t` to `t'` and leaves the entries `es`. -/
inductive Reads : Translator → List Item → Translator → List Entry → Prop where
  | nil (t : Translator) : Reads t [] t []
  | pass {t t' : Translator} {i : Item} {is : List Item} {es : List Entry} (passed : i.Passed t)
      (rest : Reads t is t' es) : Reads t (i :: is) t' es
  | enter {t t₁ t' : Translator} {e : Entry} {is : List Item} {es : List Entry} (sound : t₁.Sound)
      (extend : t.Extends t₁) (made : e.Made t t₁) (rest : Reads t₁ is t' es) :
      Reads t (e.item :: is) t' (e :: es)

theorem Walk.items_read {t : Translator} (s : t.Sound) (is : List Item) (hh : t.hoisted = [])
    (hitems : ∀ name h, t.typedefs.find? name = some h → h ∈ t.graph.module.items)
    (hk : ((is.flatMap Item.bodies).filterMap Body.key?).Nodup) :
    Walk.Ensures t (is.forM Walk.item) fun _ t' => ∃ es, Reads t is t' es := by
  induction is generalizing t with
  | nil => exact .pure ⟨[], .nil t⟩
  | cons i is ih =>
    rw [List.flatMap_cons, List.filterMap_append, List.nodup_append] at hk
    refine .bind (item_leads s i) (item_enters s i hh hitems hk.1) ?_
    rintro _ t₁ s₁ e₁ - (⟨rfl, hp⟩ | ⟨e, rfl, -, hm⟩)
    · exact (ih s hh hitems hk.2.1).weaken fun _ _ ⟨es, hes⟩ => ⟨es, .pass hp hes⟩
    · refine (ih s₁ hm.hoisted (hm.typedefs_mem hitems) hk.2.1).weaken ?_
      exact fun _ _ ⟨es, hes⟩ => ⟨e :: es, .enter s₁ e₁ hm hes⟩

/-- The bodies of items, each with the typedefs that are declared once its item is read,
after the typedefs `names`. -/
def bodiesWith (names : List String) : List Item → List (Body × List String)
  | [] => []
  | i :: is =>
    i.bodies.map (·, names ++ i.typedefName?.toList) ++
      bodiesWith (names ++ i.typedefName?.toList) is

theorem bodiesWith_fst (names : List String) (is : List Item) :
    (bodiesWith names is).map Prod.fst = is.flatMap Item.bodies := by
  induction is generalizing names with
  | nil => rfl
  | cons i is ih => simp [bodiesWith, ih, Function.comp_def]

/-- The name that an item declares is not known yet. -/
structure Item.New (i : Item) (t : Translator) : Prop where
  typedef : ∀ name, i.typedefName? = some name → t.typedefs.find? name = none
  function : ∀ name, i.functionName? = some name → t.functions.find? name = none

theorem Item.Passed.bodies {i : Item} {t : Translator} (h : i.Passed t) (hnew : i.New t) :
    i.typedefName? = none ∧ i.bodies = [] := by
  cases i with
  | typedef d =>
    rw [Passed, hnew.typedef d.name rfl] at h
    cases h
  | container kind spec => exact h.elim
  | enumeration spec => exact h.elim
  | declaration d =>
    obtain ⟨_ | name, type, location⟩ := d
    · exact ⟨rfl, rfl⟩
    · cases type with
      | function sig =>
        rw [Passed, Table.contains, hnew.function name rfl] at h
        cases h
      | _ => exact h.elim
  | ignored what => exact ⟨rfl, rfl⟩

theorem Entry.Made.new {e : Entry} {t t' : Translator} (h : e.Made t t') {i : Item} (hi : i.New t)
    (htd : ∀ name, e.item.typedefName? = some name → i.typedefName? ≠ some name)
    (hfn : ∀ name, e.item.functionName? = some name → i.functionName? ≠ some name) : i.New t' where
  typedef name hname := by
    rw [h.typedefs]
    cases he : e.item.typedefName? with
    | none => exact hi.typedef name hname
    | some declared =>
      have hne : name ≠ declared := fun heq => htd declared he (heq ▸ hname)
      exact (Table.find?_insert ..).trans ((if_neg hne).trans (hi.typedef name hname))
  function name hname := by
    rw [h.functions]
    cases he : e.item.functionName? with
    | none => exact hi.function name hname
    | some declared =>
      have hne : name ≠ declared := fun heq => hfn declared he (heq ▸ hname)
      exact (Table.find?_insert ..).trans ((if_neg hne).trans (hi.function name hname))

namespace Reads

variable {t t' : Translator} {is : List Item} {es : List Entry}

theorem extension (h : Reads t is t' es) : t.Extends t' := by
  induction h with
  | nil t => exact .refl t
  | pass _ _ ih => exact ih
  | enter _ extend _ _ ih => exact extend.trans ih

theorem sound (h : Reads t is t' es) (s : t.Sound) : t'.Sound := by
  induction h with
  | nil t => exact s
  | pass _ _ ih => exact ih s
  | enter sound _ _ _ ih => exact ih sound

theorem sublist (h : Reads t is t' es) : (es.map (·.item)).Sublist is := by
  induction h with
  | nil t => exact .slnil
  | pass _ _ ih => exact ih.cons _
  | enter _ _ _ _ ih => exact ih.cons_cons _

theorem writing (h : Reads t is t' es)
    (hk : ((es.flatMap (·.item.bodies)).filterMap Body.key?).Nodup) :
    Writing t t' (es.flatMap (·.item.bodies)) (es.flatMap (·.bodies)) := by
  induction h with
  | nil t => exact .nil (.refl t) (.refl t) rfl
  | pass _ _ ih => exact ih hk
  | enter sound _ made rest ih =>
    rw [List.flatMap_cons] at hk
    have hk' := hk
    rw [List.filterMap_append, List.nodup_append] at hk'
    exact made.writing.append sound rest.extension (ih hk'.2.1) hk

theorem mem_items_of_mem (h : Reads t is t' es) {k : Handle} (hk : k ∈ t.graph.module.items) :
    k ∈ t'.graph.module.items := by
  induction h with
  | nil t => exact hk
  | pass _ _ ih => exact ih hk
  | enter _ _ made _ ih => exact ih (made.mem_items.mpr (.inl hk))

theorem mem_items (h : Reads t is t' es) {k : Handle} (hk : k ∈ t'.graph.module.items) :
    k ∈ t.graph.module.items ∨ ∃ e ∈ es, k = e.node ∨ k ∈ e.hoisted := by
  induction h with
  | nil t => exact .inl hk
  | pass _ _ ih => exact ih hk
  | enter _ _ made _ ih =>
    rcases ih hk with hk | ⟨e, he, hk⟩
    · rcases made.mem_items.mp hk with hk | hk
      · exact .inl hk
      · exact .inr ⟨_, List.mem_cons_self, hk⟩
    · exact .inr ⟨e, List.mem_cons_of_mem _ he, hk⟩

theorem nodup (h : Reads t is t' es) (hn : t.graph.module.items.Nodup) :
    t'.graph.module.items.Nodup := by
  induction h with
  | nil t => exact hn
  | pass _ _ ih => exact ih hn
  | enter _ _ made _ ih => exact ih (made.nodup hn)

theorem filed (h : Reads t is t' es)
    (hk : ((es.flatMap (·.item.bodies)).filterMap Body.key?).Nodup) :
    ∀ e ∈ es, e.Filed t'.graph := by
  induction h with
  | nil t => exact fun _ he => nomatch he
  | pass _ _ ih => exact ih hk
  | enter sound _ made rest ih =>
    rw [List.flatMap_cons] at hk
    have hk' := hk
    rw [List.filterMap_append, List.nodup_append] at hk'
    intro e he
    rcases List.mem_cons.mp he with rfl | he
    · exact made.filed.keep rest.extension.graph
        (made.writing.kept sound (rest.writing hk'.2.1) hk) fun _ => rest.mem_items_of_mem
    · exact ih hk'.2.1 e he

/-- Where names are declared once, only items without bodies are passed over. -/
theorem bodies (h : Reads t is t' es) (htd : (is.filterMap Item.typedefName?).Nodup)
    (hfn : (is.filterMap Item.functionName?).Nodup) (hnew : ∀ i ∈ is, i.New t)
    (names : List String) : bodiesWith names (es.map (·.item)) = bodiesWith names is := by
  induction h generalizing names with
  | nil t => rfl
  | @pass t t' i is es passed rest ih =>
    obtain ⟨hname, hbodies⟩ := passed.bodies (hnew i List.mem_cons_self)
    rw [bodiesWith, hname, hbodies, Option.toList_none, List.append_nil, List.map_nil,
      List.nil_append]
    exact ih (htd.sublist ((List.sublist_cons_self i is).filterMap _))
      (hfn.sublist ((List.sublist_cons_self i is).filterMap _))
      (fun j hj => hnew j (List.mem_cons_of_mem _ hj)) names
  | @enter t t₁ t' e is es sound extend made rest ih =>
    rw [List.map_cons, bodiesWith, bodiesWith, ih
      (htd.sublist ((List.sublist_cons_self _ is).filterMap _))
      (hfn.sublist ((List.sublist_cons_self _ is).filterMap _))]
    intro j hj
    refine made.new (hnew j (List.mem_cons_of_mem _ hj)) ?_ ?_
    · intro name he hjname
      rw [List.filterMap_cons, he, List.nodup_cons] at htd
      exact htd.1 (List.mem_filterMap.mpr ⟨j, hj, hjname⟩)
    · intro name he hjname
      rw [List.filterMap_cons, he, List.nodup_cons] at hfn
      exact hfn.1 (List.mem_filterMap.mpr ⟨j, hj, hjname⟩)

end Reads

/-- The entries of a table under some of its keys. -/
def Table.only {κ α : Type} [DecidableEq κ] (t : Table κ α) (keys : List κ) : Table κ α :=
  ⟨t.entries.filter (·.1 ∈ keys)⟩

theorem Table.find?_only {κ α : Type} [DecidableEq κ] (t : Table κ α) (keys : List κ) (k : κ) :
    (t.only keys).find? k = if k ∈ keys then t.find? k else none := by
  obtain ⟨entries⟩ := t
  induction entries with
  | nil => simp [only, find?]
  | cons entry entries ih =>
    obtain ⟨j, a⟩ := entry
    simp only [only, find?] at ih ⊢
    by_cases hj : j ∈ keys
    · simp only [List.filter_cons, hj, decide_true, if_true, List.lookup_cons, ih]
      by_cases hk : k = j
      · simp [hk, hj]
      · simp [beq_false_of_ne hk]
    · simp only [List.filter_cons, hj, decide_false, Bool.false_eq_true, if_false, ih,
        List.lookup_cons]
      by_cases hk : k = j
      · simp [hk, hj]
      · simp [beq_false_of_ne hk]

theorem Entry.Made.only {e : Entry} {t t' : Translator} (h : e.Made t t')
    {final : Table String Handle} {names : List String}
    (hto : ∀ name x, t'.typedefs.find? name = some x → final.find? name = some x)
    (hnames : ∀ name, t.typedefs.find? name = (final.only names).find? name) (name : String) :
    t'.typedefs.find? name = (final.only (names ++ e.item.typedefName?.toList)).find? name := by
  have hstart := hnames name
  rw [Table.find?_only] at hstart ⊢
  have htypedefs := h.typedefs
  cases he : e.item.typedefName? with
  | none =>
    rw [he] at htypedefs
    simpa [htypedefs] using hstart
  | some declared =>
    rw [he, Option.elim_some] at htypedefs
    by_cases hname : name = declared
    · subst hname
      have hnode : t'.typedefs.find? name = some e.node := by
        rw [htypedefs, Table.find?_insert, if_pos rfl]
      simp [hnode, hto _ _ hnode]
    · rw [htypedefs, Table.find?_insert, if_neg hname]
      simpa [hname] using hstart

/-- The types of a body are looked up in the typedefs that are declared once its item is read. -/
theorem Reads.tables {t t' : Translator} {is : List Item} {es : List Entry}
    (h : Reads t is t' es) {g : Graph} (hfiled : ∀ e ∈ es, e.Filed g) {names : List String}
    (hnames : ∀ name, t.typedefs.find? name = (t'.typedefs.only names).find? name) :
    List.Forall₂ (fun (q : Body × List String) (p : Body × Handle) =>
        p.1 = q.1 ∧ BodyAt (t'.typedefs.only q.2) g p.2 p.1)
      (bodiesWith names (es.map (·.item))) (es.flatMap (·.bodies)) := by
  induction h generalizing names with
  | nil t => exact .nil
  | pass _ _ ih => exact ih hfiled hnames
  | @enter t t₁ t' e is es _ _ made rest ih =>
    have hknown := made.only rest.extension.typedefs hnames
    have hrest := ih (fun e he => hfiled e (List.mem_cons_of_mem _ he)) hknown
    rw [List.map_cons, bodiesWith, List.flatMap_cons, ← made.writing.bodies, List.map_map]
    refine List.rel_append ?_ hrest
    rw [List.forall₂_map_left_iff, List.forall₂_same]
    intro p hp
    have hbody := (hfiled e List.mem_cons_self).tables p hp
    rw [← made.typedefs_eq] at hbody
    exact ⟨rfl, hbody.congr fun name => (hknown name).symm⟩

theorem SourceUnit.reads {u : SourceUnit} {g : Graph} (hg : u.translate = .ok g)
    (hk : (u.bodies.filterMap Body.key?).Nodup) :
    ∃ t es, t.graph = g ∧ Reads .start u.items t es ∧ Translator.start.feed u = (.ok ⟨⟩, t) := by
  obtain ⟨t, ht, rfl⟩ := translate_ok hg
  have hread := Walk.items_read .start u.items rfl (fun _ _ h => nomatch h) hk ⟨⟩ t ht
  obtain ⟨es, hes⟩ := hread
  exact ⟨t, es, rfl, hes, ht⟩

end CythonDecls
