import CythonDecls.Proofs.Unnest.Passes

/-!
# Unnesting that ends

Where unnesting a container returns, going in from the container comes to an
end: the loop over its fields left none that defines its type on the spot, and
only what going in ends at was taken out. So a graph that could be unnested was
passed item by item, whatever else stands in it.
-/

namespace CythonDecls

namespace Unnesting

variable {u v w m m' : Unnesting} {c d h k item : Handle} {i j : Nat} {f : Field}

theorem inline_iff_field : u.graph.Inline c k ↔
    ∃ i f, u.field? c i = some f ∧ f.inline = true ∧ f.type = k := by
  constructor
  · rintro ⟨kind, body, hbody, f, hf, hi, hk⟩
    obtain ⟨i, hfi⟩ := List.getElem?_of_mem hf
    exact ⟨i, f, field?_eq_some.mpr ⟨kind, body, hbody, hfi⟩, hi, hk⟩
  · rintro ⟨i, f, hf, hi, rfl⟩
    exact inline_of_field hf hi

theorem field?_named (h : Handle) (name : String) : (u.named h name).field? c i = u.field? c i := by
  cases hn : u.graph.get? h with
  | none => simp [named, Graph.setTag, hn]
  | some n =>
    unfold field? Graph.container?
    rw [named_graph hn]
    by_cases hc : c = h
    · subst hc
      rw [Graph.get?_set_self hn, hn]
      cases n <;> rfl
    · rw [Graph.get?_set_ne _ hc]

theorem field?_extract_ne (hf : u.field? c i = some f) (inner : Handle) (name : String)
    (hne : d ≠ c ∨ j ≠ i) : (u.extract c i inner name).field? d j = u.field? d j := by
  obtain ⟨kind, body, hbody, _⟩ := field?_eq_some.mp hf
  unfold field? Graph.container?
  rw [extract_graph hbody]
  by_cases hd : d = c
  · subst hd
    have hj : i ≠ j := fun hij => hne.elim (· rfl) (· hij.symm)
    rw [Graph.get?_set_self (Graph.get?_add_of_some hbody _), hbody]
    simp [Node.container?, hj]
  · rw [Graph.get?_set_ne _ hd, Graph.get?_add]
    by_cases hnext : d = u.graph.next
    · simp [hnext, Graph.get?_next, Node.container?]
    · rw [if_neg hnext]

theorem hasBody_extract (hf : u.field? c i = some f) (inner : Handle) (name : String) :
    (u.extract c i inner name).graph.HasBody h ↔ u.graph.HasBody h := by
  by_cases hc : h = c
  · subst hc
    obtain ⟨_, _, hbody, hfi⟩ := field?_eq_some.mp hf
    obtain ⟨_, _, hbody', hfi'⟩ := field?_eq_some.mp (field?_extract hf inner name)
    exact iff_of_true (Graph.hasBody_of_field hbody' (List.mem_of_getElem? hfi'))
      (Graph.hasBody_of_field hbody (List.mem_of_getElem? hfi))
  · obtain ⟨_, _, hbody, _⟩ := field?_eq_some.mp hf
    unfold Graph.HasBody
    rw [extract_graph hbody, Graph.get?_set_ne _ hc, Graph.get?_add]
    by_cases hnext : h = u.graph.next
    · simp [hnext, Graph.get?_next, Node.hasBody, Node.isAggregate]
    · rw [if_neg hnext]

/-- From `u` to `v`, only bodies at which going in ends were taken out of the
bodies around them. -/
structure Drains (u v : Unnesting) : Prop where
  field : ∀ c i, v.field? c i = u.field? c i ∨ ∃ f f', u.field? c i = some f ∧
    (f.inline = true → u.graph.HasBody f.type → u.graph.Bottoms f.type) ∧
    v.field? c i = some f' ∧ f'.inline = false
  hasBody : ∀ h, v.graph.HasBody h ↔ u.graph.HasBody h

theorem Drains.refl (u : Unnesting) : Drains u u := ⟨fun _ _ => .inl rfl, fun _ => .rfl⟩

theorem Drains.held (h : Drains u v) (hk : u.graph.Holds c k) :
    v.graph.Holds c k ∨ u.graph.Bottoms k := by
  obtain ⟨i, f, hf, hi, rfl⟩ := inline_iff_field.mp hk.1
  rcases h.field c i with he | ⟨f, _, hf', hends, _⟩
  · exact .inl ⟨inline_of_field (he.trans hf) hi, (h.hasBody _).mpr hk.2⟩
  · rw [hf, Option.some.injEq] at hf'
    subst hf'
    exact .inr (hends hi hk.2)

theorem Drains.bottoms (h : Drains u v) (hk : v.graph.Bottoms k) : u.graph.Bottoms k := by
  induction hk with
  | intro k _ ih => exact .intro k fun l hl => (h.held hl).elim (ih l) id

theorem Drains.trans (h : Drains u v) (h' : Drains v w) : Drains u w where
  field c i := by
    rcases h.field c i with he | ⟨f, f', hf, hends, hf', hi'⟩
    · rcases h'.field c i with he' | ⟨f, f', hf, hends, hf', hi'⟩
      · exact .inl (he'.trans he)
      · refine .inr ⟨f, f', he ▸ hf, fun hi hb => h.bottoms ?_, hf', hi'⟩
        exact hends hi ((h.hasBody _).mpr hb)
    · rcases h'.field c i with he' | ⟨_, f'', _, _, hf'', hi''⟩
      · exact .inr ⟨f, f', hf, hends, he'.trans hf', hi'⟩
      · exact .inr ⟨f, f'', hf, hends, hf'', hi''⟩
  hasBody k := (h'.hasBody k).trans (h.hasBody k)

theorem Drains.bottoms_of_flat (h : Drains u v) (hc : v.graph.Flat c) : u.graph.Bottoms c :=
  .intro c fun _ hk => (h.held hk).resolve_left fun hv => hc _ hv.1 hv.2

theorem Drains.settled (h : Drains u v) (hc : Settled u c i) : Settled v c i := by
  intro f' hf' hi' hb'
  rcases h.field c i with he | ⟨_, _, _, _, hf, hi⟩
  · exact hc f' (he ▸ hf') hi' ((h.hasBody _).mp hb')
  · rw [hf', Option.some.injEq] at hf
    rw [← hf, hi'] at hi
    cases hi

theorem named_drains (hi : u.graph.Inline c h) (hb : u.graph.HasBody h) (outer inner : String) :
    Drains u (u.named h (mangle outer inner)) where
  field _ _ := .inl (field?_named ..)
  hasBody _ := (Graph.setTag_unnests hi hb outer inner []).hasBody

theorem extract_drains (hf : u.field? c i = some f) (inner : Handle) (name : String)
    (hends : f.inline = true → u.graph.HasBody f.type → u.graph.Bottoms f.type) :
    Drains u (u.extract c i inner name) where
  field d j := by
    by_cases hdj : d = c ∧ j = i
    · obtain ⟨rfl, rfl⟩ := hdj
      exact .inr ⟨f, _, hf, hends, field?_extract hf inner name, rfl⟩
    · exact .inl (field?_extract_ne hf inner name (by tauto))
  hasBody _ := hasBody_extract hf inner name

theorem Drains.extract (h : Drains u v) (hf : u.field? c i = some f) (hflat : v.graph.Flat f.type)
    (name : String) :
    Drains u (v.extract c i f.type name) ∧ Settled (v.extract c i f.type name) c i := by
  have hbottoms : v.graph.Bottoms f.type := (Drains.refl v).bottoms_of_flat hflat
  rcases h.field c i with he | ⟨_, f', _, _, hf', hi'⟩
  · rw [hf] at he
    exact ⟨h.trans (extract_drains he _ name fun _ _ => hbottoms), extract_settled he _ name⟩
  · exact ⟨h.trans (extract_drains hf' _ name (by simp [hi'])), extract_settled hf' _ name⟩

/-- Whatever unnests an inner type and returns leaves it without bodies in it. -/
def Empties (inside : Handle → String → Unnesting → Except Fault Unnesting) : Prop :=
  ∀ k name u v, inside k name u = .ok v → Drains u v ∧ v.graph.Flat k

theorem field_drains {inside : Handle → String → Unnesting → Except Fault Unnesting}
    (hinside : Empties inside) {outer : String} (h : field inside c outer u i = .ok v) :
    Drains u v ∧ Settled v c i := by
  rcases field_ok h with ⟨rfl, hsettled⟩ | ⟨f, n, name, w, hf, hi, hn, hb, rfl, rfl, hw⟩
  · exact ⟨.refl v, hsettled⟩
  · have hnamed := named_drains (inline_of_field hf hi) ⟨n, hn, hb⟩ outer (n.tag?.getD f.name)
    rcases hw with hw | ⟨rfl, e, rfl⟩
    · obtain ⟨hdrains, hflat⟩ := hinside _ _ _ _ hw
      exact (hnamed.trans hdrains).extract hf hflat _
    · refine hnamed.extract hf (fun k hk _ => ?_) _
      have hnode := Graph.get?_set_self hn
        (Node.withTag (mangle outer (e.tag.getD f.name)) (.enumeration e))
      rw [← named_graph hn] at hnode
      exact Graph.not_inline_enumeration hnode hk

theorem fields_drain {inside : Handle → String → Unnesting → Except Fault Unnesting}
    (hinside : Empties inside) {outer : String} (is : List Nat)
    (h : is.foldlM (field inside c outer) u = .ok v) : Drains u v ∧ ∀ i ∈ is, Settled v c i := by
  induction is generalizing u with
  | nil =>
    cases h
    exact ⟨.refl _, fun _ hi => nomatch hi⟩
  | cons i is ih =>
    rw [List.foldlM_cons] at h
    obtain ⟨w, hw, h⟩ := exists_of_bind h
    obtain ⟨huw, hset⟩ := field_drains hinside hw
    obtain ⟨hwv, hall⟩ := ih h
    refine ⟨huw.trans hwv, fun j hj => ?_⟩
    rcases List.mem_cons.mp hj with rfl | hj
    · exact hwv.settled hset
    · exact hall j hj

theorem container_empties (n : Nat) : Empties (container n) := by
  induction n with
  | zero =>
    intro k name u v h
    cases h
  | succ n ih =>
    intro c outer u v h
    obtain ⟨huv, hall⟩ := fields_drain ih _ h
    refine ⟨huv, fun k hi hb => ?_⟩
    obtain ⟨i, f, hf, hinline, rfl⟩ := inline_iff_field.mp hi
    refine hall i ?_ f hf hinline hb
    obtain ⟨f, hfi⟩ : ∃ f, u.field? c i = some f := by
      rcases huv.field c i with he | ⟨f, _, hfi, _⟩
      · exact ⟨_, he ▸ hf⟩
      · exact ⟨f, hfi⟩
    obtain ⟨_, body, hbody, hfi⟩ := field?_eq_some.mp hfi
    rw [Graph.container?_eq_some.mpr ⟨_, hbody⟩, List.mem_range]
    exact (List.getElem?_eq_some_iff.mp hfi).1

/-! ## Runs that end -/

theorem unnestStep_ends (hc : m.graph.InRange) (hi : item.index < m.graph.size)
    (h : Graph.unnestStep m item = .ok m') : Passes m item m' := by
  obtain ⟨m'', hm'', hpass⟩ := unnestStep_runs hc hi fun hleft c hroot => by
    refine ⟨m.graph.inside, Graph.Bottoms.rankedBelow ?_, Graph.inside_le ..⟩
    obtain ⟨outer, hroot⟩ := Graph.root_iff.mp hroot
    rcases unnestStep_ok h with ⟨hdone | hnone, _⟩ | ⟨c', outer', w, _, hroot', hw, _⟩
    · exact absurd hdone hleft
    · rw [hroot] at hnone
      cases hnone
    · rw [hroot] at hroot'
      cases hroot'
      obtain ⟨hdrains, hflat⟩ := container_empties _ _ _ _ _ hw
      exact hdrains.bottoms_of_flat hflat
  rw [h] at hm''
  cases hm''
  exact hpass

theorem foldlM_ends (items : List Handle) (hc : m.graph.InRange)
    (hi : ∀ k ∈ items, k.index < m.graph.size)
    (h : items.foldlM Graph.unnestStep m = .ok m') : Run m items m' := by
  induction items generalizing m with
  | nil =>
    cases h
    exact .nil _
  | cons item items ih =>
    rw [List.foldlM_cons] at h
    obtain ⟨m₁, hm₁, h⟩ := exists_of_bind h
    have hpass := unnestStep_ends hc (hi item List.mem_cons_self) hm₁
    obtain ⟨_, hu⟩ := hpass.unnests
    exact .cons hpass (ih (hu.inRange hc)
      (fun k hk => Nat.lt_of_lt_of_le (hi k (List.mem_cons_of_mem _ hk)) hu.size) h)

/-- A graph that could be unnested was passed item by item. -/
theorem unnest_ends {g g' : Graph} {stats : UnnestStats} (hc : g.InRange)
    (hi : ∀ k ∈ g.module.items, k.index < g.size) (h : g.unnest = .ok (g', stats)) :
    ∃ m, Run ⟨g, [], ⟨0, 0⟩⟩ g.module.items m ∧ m.graph = g' ∧ m.stats = stats := by
  obtain ⟨m, hm, h⟩ := exists_of_bind h
  cases h
  exact ⟨m, foldlM_ends _ hc hi hm, rfl, rfl⟩

end Unnesting

end CythonDecls
