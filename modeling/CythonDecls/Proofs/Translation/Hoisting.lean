import CythonDecls.Proofs.Translation.DefinitionPlaces

/-!
# Nested definitions come first

The definitions that are nested in an item wait until the item itself is
placed, and go in front of it then. So between two items nothing waits, and as
no later item moves a nested definition, it stays in front.
-/

namespace CythonDecls

namespace Entry

/-- Every body of the item has its node in `g`, and the nested ones are items of the module
in front of the item's own node. -/
structure Hoists (e : Entry) (g : Graph) : Prop where
  item : e.node ∈ g.module.items
  body : ∀ p ∈ e.bodies, ∃ typedefs, BodyAt typedefs g p.2 p.1
  ahead : ∀ p ∈ e.bodies, p.1.place = .nested → g.module.Precedes p.2 e.node

variable {e : Entry} {t t' : Translator} {b : Body} {c : Handle}

/-- An item with bodies that is no definition has a node of its own, which is new. -/
theorem Made.not_item_before (h : e.Made t t') (s : t.Sound) (extend : t.Extends t')
    (hfresh : e.Fresh t) (hdefines : e.item.defines = false) (hb : (b, c) ∈ e.bodies) :
    e.node ∉ t.graph.module.items := by
  intro hmem
  obtain ⟨n, hn, _⟩ := s.items e.node hmem
  obtain ⟨n', hn', hbecomes⟩ := extend.graph e.node n hn
  have hagg : n'.isAggregate = true := hbecomes.isAggregate.trans (hfresh n hn)
  have hbody : b ∈ e.item.bodies := h.writing.bodies ▸ List.mem_map_of_mem hb
  -- then the item is a mention of a tag, and that has no bodies
  rcases Item.aggregate_of_sorts (h.declares.sorts hn') hagg with ⟨kind, spec, hi⟩ | ⟨spec, hi⟩
  · obtain ⟨tag, _ | members, location⟩ := spec
    · rw [hi] at hbody
      cases hbody
    · rw [hi] at hdefines
      cases hdefines
  · obtain ⟨tag, _ | enumerators, location⟩ := spec
    · rw [hi] at hbody
      cases hbody
    · rw [hi] at hdefines
      cases hdefines

theorem Made.precedes_node (h : e.Made t t') (hn : t.graph.module.items.Nodup)
    (hnew : e.item.defines = false → e.node ∉ t.graph.module.items)
    (hc : c ∈ e.hoisted) (hne : c ≠ e.node) : t'.graph.module.Precedes c e.node := by
  rw [h.module]
  apply Module.precedes_push
  · apply Module.mem_pushAll.mpr
    right
    simp [hc, hne]
  · intro hmem
    rcases Module.mem_pushAll.mp hmem with hmem | hmem
    · by_cases hd : e.item.defines = true
      · rw [if_pos hd] at hmem
        exact (hn.mem_erase_iff.mp hmem).1 rfl
      · rw [if_neg hd] at hmem
        exact hnew (Bool.eq_false_iff.mpr hd) hmem
    · simp at hmem

end Entry

theorem Reads.hoisted {t t' : Translator} {is : List Item} {es : List Entry}
    (h : Reads t is t' es) (hh : t.hoisted = []) : t'.hoisted = [] := by
  induction h with
  | nil t => exact hh
  | pass _ _ ih => exact ih hh
  | enter _ _ made _ ih => exact ih made.hoisted

theorem Entry.keys_of_sublist {is : List Item} {es : List Entry} (h : (es.map (·.item)).Sublist is)
    (hk : ((is.flatMap Item.bodies).filterMap Body.key?).Nodup) :
    ((es.flatMap (·.item.bodies)).filterMap Body.key?).Nodup := by
  have hsub := (h.flatMap Item.bodies).filterMap Body.key?
  rw [List.flatMap_map] at hsub
  exact hk.sublist hsub

/-! ## Reading up to one item -/

section
variable {before behind : List Item} {i : Item} {t' : Translator}

theorem Walk.items_split {t : Translator}
    (h : ((before ++ i :: behind).forM item).run t = (.ok ⟨⟩, t')) :
    ∃ t₁ t₂, (before.forM item).run t = (.ok ⟨⟩, t₁) ∧ (item i).run t₁ = (.ok ⟨⟩, t₂) ∧
      (behind.forM item).run t₂ = (.ok ⟨⟩, t') := by
  rw [List.forM_eq_forM, List.forM_append] at h
  obtain ⟨_, t₁, hbefore, h⟩ := run_bind_ok h
  rw [List.forM_cons] at h
  obtain ⟨_, t₂, hi, hbehind⟩ := run_bind_ok h
  exact ⟨t₁, t₂, hbefore, hi, hbehind⟩

theorem Walk.items_stage (h : ((before ++ i :: behind).forM item).run .start = (.ok ⟨⟩, t'))
    (hk : (((before ++ i :: behind).flatMap Item.bodies).filterMap Body.key?).Nodup) :
    ∃ t₁ t₂, (before.forM item).run .start = (.ok ⟨⟩, t₁) ∧ (item i).run t₁ = (.ok ⟨⟩, t₂) ∧
      t₂.hoisted = [] ∧ ((i.Passed t₁ ∧ t₂ = t₁) ∨
        ∃ es, ∃ s : Stage .start (before ++ i :: behind) t' es, s.entry.item = i ∧
          s.start = t₁ ∧ s.stop = t₂ ∧ s.entry.Fresh t₁ ∧
          ((es.flatMap (·.item.bodies)).filterMap Body.key?).Nodup) := by
  obtain ⟨t₁, t₂, hbefore, hi, hbehind⟩ := items_split h
  have hkeys := hk
  rw [List.flatMap_append, List.flatMap_cons, List.filterMap_append, List.filterMap_append,
    List.nodup_append, List.nodup_append] at hkeys
  obtain ⟨hkbefore, ⟨hki, hkbehind, _⟩, _⟩ := hkeys
  have hstart : ∀ name h, Translator.start.typedefs.find? name = some h →
      h ∈ Translator.start.graph.module.items := fun _ _ h => nomatch h
  obtain ⟨es, hfront⟩ := items_read .start before rfl hstart hkbefore ⟨⟩ t₁ hbefore
  have s₁ : t₁.Sound := hfront.sound .start
  have hh : t₁.hoisted = [] := hfront.hoisted rfl
  have htypedefs := hfront.typedefs_mem hstart
  refine ⟨t₁, t₂, hbefore, hi, ?_⟩
  rcases item_enters s₁ i hh htypedefs hki ⟨⟩ t₂ hi with ⟨rfl, hpassed⟩ | ⟨e, rfl, hfresh, hmade⟩
  · exact ⟨hh, .inl ⟨hpassed, rfl⟩⟩
  · obtain ⟨s₂, extend, _⟩ := (item_leads s₁ e.item).ok hi
    obtain ⟨fs, hback⟩ := items_read s₂ behind hmade.hoisted (hmade.typedefs_mem htypedefs)
      hkbehind ⟨⟩ t' hbehind
    let stage : Stage .start (before ++ e.item :: behind) t' (es ++ e :: fs) :=
      { before, done := es, start := t₁, entry := e, stop := t₂, behind, left := fs
        items := rfl, entries := rfl, front := hfront, sound := s₂, extend, made := hmade
        back := hback }
    refine ⟨hmade.hoisted, .inr ⟨es ++ e :: fs, stage, rfl, rfl, rfl, hfresh, ?_⟩⟩
    refine Entry.keys_of_sublist ?_ hk
    rw [List.map_append, List.map_cons]
    exact hfront.sublist.append (hback.sublist.cons_cons _)

end

namespace Stage

variable {t' : Translator} {is : List Item} {es : List Entry} (s : Stage .start is t' es)
  (hk : ((es.flatMap (·.item.bodies)).filterMap Body.key?).Nodup)
include hk

theorem ne_node {b : Body} {c : Handle} (hb : (b, c) ∈ s.entry.bodies)
    (hplace : b.place = .nested) :
    c ≠ s.entry.node := by
  rintro rfl
  have hdefines := s.made.defines_of_body hb
  exact s.ne_of_place hk hb (by simp [hplace]) s.entry List.mem_cons_self hdefines rfl

theorem hoists (hfresh : s.entry.Fresh s.start) : s.entry.Hoists t'.graph where
  item := s.node_mem
  body p hp := by
    obtain ⟨typedefs, _, hbody⟩ := s.bodyAt hk hp
    exact ⟨typedefs, hbody⟩
  ahead p hp hplace := by
    have hne := s.ne_node hk hp hplace
    have hc : p.2 ∈ s.entry.hoisted := by
      have hat := s.made.placed p hp
      unfold PlacedAt at hat
      rw [hplace] at hat
      exact hat.1
    have hfirst : s.stop.graph.module.Precedes p.2 s.entry.node :=
      s.made.precedes_node s.start_nodup
        (fun hd => s.made.not_item_before s.start_sound s.extend hfresh hd hp) hc hne
    have hstays : ∀ e ∈ s.left, e.item.defines = true → p.2 ≠ e.node := fun e he =>
      s.ne_of_place hk hp (by simp [hplace]) e (List.mem_cons_of_mem _ he)
    exact s.back.precedes (s.made.nodup s.start_nodup) (s.made.filed.hoisted _ hc) hstays
      s.node_mem fun _ => hfirst

end Stage

/-- Where no tag is defined twice, an accepted unit has no item twice. Each item of the source
leaves no definition waiting, and is passed over or leaves its bodies, of which the nested ones
are in front of it. -/
theorem SourceUnit.nested_first {u : SourceUnit} {g : Graph} (hg : u.translate = .ok g)
    (hk : (u.bodies.filterMap Body.key?).Nodup) :
    g.module.items.Nodup ∧ ∀ before i behind, u.items = before ++ i :: behind →
      ∃ t t', (before.forM Walk.item).run .start = (.ok ⟨⟩, t) ∧
        (Walk.item i).run t = (.ok ⟨⟩, t') ∧ t'.hoisted = [] ∧
        ((i.Passed t ∧ t' = t) ∨ ∃ e : Entry, e.item = i ∧ e.Made t t' ∧ e.Hoists g) := by
  obtain ⟨_, _, rfl, hread, _⟩ := u.reads hg hk
  refine ⟨hread.nodup .nil, ?_⟩
  intro before i behind hitems
  obtain ⟨t', hrun, hg'⟩ := translate_ok hg
  change (u.items.forM Walk.item).run .start = _ at hrun
  unfold SourceUnit.bodies at hk
  rw [hitems] at hk hrun
  obtain ⟨t₁, t₂, hbefore, hi, hh, hcase⟩ := Walk.items_stage hrun hk
  refine ⟨t₁, t₂, hbefore, hi, hh, hcase.imp_right ?_⟩
  intro ⟨es, stage, hitem, hstart, hstop, hfresh, hkeys⟩
  subst hstart hstop
  exact ⟨stage.entry, hitem, stage.made, hg' ▸ stage.hoists hkeys hfresh⟩

/-- `struct S` is hoisted out of the declaration of `p`, where it was mentioned before. -/
theorem nested_first_inDeclaration :
    (Sample.inDeclaration.bodies.filterMap Body.key?).Nodup ∧
    ∃ g, Sample.inDeclaration.translate = .ok g ∧
      g.module.items.Nodup ∧ ∀ before i behind, Sample.inDeclaration.items = before ++ i :: behind →
        ∃ t t', (before.forM Walk.item).run .start = (.ok ⟨⟩, t) ∧
          (Walk.item i).run t = (.ok ⟨⟩, t') ∧ t'.hoisted = [] ∧
          ((i.Passed t ∧ t' = t) ∨ ∃ e : Entry, e.item = i ∧ e.Made t t' ∧ e.Hoists g) := by
  have hk : (Sample.inDeclaration.bodies.filterMap Body.key?).Nodup := by decide
  have h : Sample.inDeclaration.translate.toOption.isSome = true := by decide +kernel
  obtain ⟨g, hg⟩ := Option.isSome_iff_exists.mp h
  have hg := Graph.eq_ok_of_mem_toOption hg
  exact ⟨hk, g, hg, SourceUnit.nested_first hg hk⟩

end CythonDecls
