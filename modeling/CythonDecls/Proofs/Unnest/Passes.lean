import CythonDecls.Proofs.Graph.Items
import CythonDecls.Proofs.Unnest.Steps

/-!
# Unnesting item by item

Each item is passed once. What it declares is flat afterwards, and what was
extracted from it stands right before it, named and flat. Later items take
nothing back.
-/

namespace CythonDecls

/-- The container that an item declares under a name. -/
def Graph.Root (g : Graph) (item c : Handle) : Prop :=
  (c = item ∧ ∃ kind body, g.get? item = some (.container kind body) ∧ body.tag.isSome = true) ∨
    ∃ d kind body, g.get? item = some (.typedef d) ∧ d.target = some c ∧
      g.get? c = some (.container kind body)

theorem Graph.root?_eq_some {g : Graph} {item c : Handle} {outer : String} :
    g.root? item = .ok (some (c, outer)) ↔ ∃ kind body, g.get? c = some (.container kind body) ∧
      ((c = item ∧ body.tag = some outer) ∨
        ∃ d, g.get? item = some (.typedef d) ∧ d.target = some c ∧
          body.tag.getD d.name = outer) := by
  constructor
  · intro h
    unfold root? at h
    obtain ⟨n, hget, h⟩ := exists_of_bind h
    have hn : g.get? item = some n := get_eq_ok.mp hget
    cases n with
    | container kind body =>
      cases ht : body.tag with
      | none => simp [ht, pure, Except.pure] at h
      | some tag =>
        simp only [ht, Option.map_some, pure, Except.pure, Except.ok.injEq, Option.some.injEq,
          Prod.mk.injEq] at h
        obtain ⟨rfl, rfl⟩ := h
        exact ⟨kind, body, hn, .inl ⟨rfl, ht⟩⟩
    | typedef d =>
      cases ht : d.target with
      | none => simp [ht, pure, Except.pure] at h
      | some target =>
        cases hbody : g.container? target with
        | none => simp [ht, hbody, pure, Except.pure] at h
        | some body =>
          simp only [ht, hbody, Option.map_some, pure, Except.pure, Except.ok.injEq,
            Option.some.injEq, Prod.mk.injEq] at h
          obtain ⟨rfl, rfl⟩ := h
          obtain ⟨kind, hkind⟩ := container?_eq_some.mp hbody
          exact ⟨kind, body, hkind, .inr ⟨d, hn, ht, rfl⟩⟩
    | _ => simp [pure, Except.pure] at h
  · intro ⟨kind, body, hbody, hitem⟩
    rcases hitem with ⟨rfl, ht⟩ | ⟨d, hd, ht, rfl⟩
    · simp [root?, get, hbody, ht, bind, Except.bind, pure, Except.pure]
    · have hc : g.container? c = some body := container?_eq_some.mpr ⟨kind, hbody⟩
      simp [root?, get, hd, ht, hc, bind, Except.bind, pure, Except.pure]

theorem Graph.root_iff {g : Graph} {item c : Handle} :
    g.Root item c ↔ ∃ outer, g.root? item = .ok (some (c, outer)) := by
  constructor
  · intro h
    rcases h with ⟨rfl, kind, body, hbody, ht⟩ | ⟨d, kind, body, hd, ht, hbody⟩
    · obtain ⟨tag, ht⟩ := Option.isSome_iff_exists.mp ht
      exact ⟨tag, root?_eq_some.mpr ⟨kind, body, hbody, .inl ⟨rfl, ht⟩⟩⟩
    · exact ⟨_, root?_eq_some.mpr ⟨kind, body, hbody, .inr ⟨d, hd, ht, rfl⟩⟩⟩
  · intro ⟨outer, h⟩
    obtain ⟨kind, body, hbody, hitem⟩ := root?_eq_some.mp h
    rcases hitem with ⟨rfl, ht⟩ | ⟨d, hd, ht, _⟩
    · exact .inl ⟨rfl, kind, body, hbody, by simp [ht]⟩
    · exact .inr ⟨d, kind, body, hd, ht, hbody⟩

theorem Graph.root?_eq {g : Graph} {item : Handle} {n : Node} (hn : g.get? item = some n) :
    (g.root? item = .ok none ∧ ∀ c, ¬g.Root item c) ∨
      ∃ c outer, g.root? item = .ok (some (c, outer)) ∧ g.Root item c := by
  have hok : ∃ root, g.root? item = .ok root := by
    simp only [root?, get, hn, bind, Except.bind]
    cases n with
    | typedef d =>
      cases hd : d.target with
      | none => exact ⟨none, by simp only [hd]; rfl⟩
      | some target => exact ⟨_, by simp only [hd]; rfl⟩
    | _ => exact ⟨_, rfl⟩
  obtain ⟨root, hroot⟩ := hok
  cases root with
  | none =>
    refine .inl ⟨hroot, fun c hc => ?_⟩
    obtain ⟨outer, h⟩ := root_iff.mp hc
    rw [hroot] at h
    cases h
  | some root => exact .inr ⟨root.1, root.2, hroot, root_iff.mpr ⟨root.2, hroot⟩⟩

theorem Graph.Root.unique {g : Graph} {item c c' : Handle} (h : g.Root item c)
    (h' : g.Root item c') : c = c' := by
  obtain ⟨outer, h⟩ := root_iff.mp h
  obtain ⟨outer', h'⟩ := root_iff.mp h'
  rw [h] at h'
  cases h'
  rfl

theorem Graph.Unnests.root {g g' : Graph} {ex : List Handle} (hu : g.Unnests g' ex)
    {item c : Handle} (h : g.Root item c) : g'.Root item c := by
  have hcontainer {k : Handle} {kind : ContainerKind} {body : Container}
      (hk : g.get? k = some (.container kind body)) :
      ∃ body', g'.get? k = some (.container kind body') ∧
        (body.tag.isSome = true → body'.tag.isSome = true) := by
    obtain ⟨n', hn', hb⟩ := hu.nodes k _ hk
    cases hb with
    | same => exact ⟨body, hn', id⟩
    | container _ tag _ => exact ⟨_, hn', tag⟩
  rcases h with ⟨rfl, kind, body, hn, ht⟩ | ⟨d, kind, body, hd, ht, hc⟩
  · obtain ⟨body', hn', htag⟩ := hcontainer hn
    exact .inl ⟨rfl, kind, body', hn', htag ht⟩
  · obtain ⟨body', hc', _⟩ := hcontainer hc
    exact .inr ⟨d, kind, body', hu.typedef hd, ht, hc'⟩

namespace Unnesting

variable {m m' m'' : Unnesting} {item : Handle}

/-- An item is passed: it was extracted before, it has no root, or its root is
unnested and what that gives up goes before the item. -/
inductive Passes : Unnesting → Handle → Unnesting → Prop where
  | skip {m : Unnesting} {item : Handle} (extracted : item ∈ m.extracted) : Passes m item m
  | rootless {m : Unnesting} {item : Handle} (rootless : ∀ c, ¬m.graph.Root item c) :
    Passes m item m
  | root {m v : Unnesting} {item c : Handle} (left : item ∉ m.extracted)
    (root : m.graph.Root item c)
      (steps : Steps ⟨m.graph, [], m.stats⟩ v) (flat : v.graph.Flat c) (free : item ∉ v.extracted)
      (reached : ∀ k ∈ v.extracted, m.graph.size ≤ k.index ∨ Relation.TransGen m.graph.Holds c k)
      (tags : KeepsTags m.graph v.graph v.extracted) :
    Passes m item ⟨v.graph.mapModule (·.spliceBefore item v.extracted),
      m.extracted ++ v.extracted, v.stats⟩

inductive Run : Unnesting → List Handle → Unnesting → Prop where
  | nil (m : Unnesting) : Run m [] m
  | cons {m m' m'' : Unnesting} {item : Handle} {items : List Handle} (first : Passes m item m')
      (rest : Run m' items m'') : Run m (item :: items) m''

theorem Passes.unnests (h : Passes m item m') :
    (∃ ex, m'.extracted = m.extracted ++ ex) ∧ m.graph.Unnests m'.graph m'.extracted := by
  cases h with
  | skip => exact ⟨⟨[], (List.append_nil _).symm⟩, .refl ..⟩
  | rootless => exact ⟨⟨[], (List.append_nil _).symm⟩, .refl ..⟩
  | @root v _ c left root steps flat free reached tags =>
    have hmodule := Graph.Unnests.mapModule v.graph (·.spliceBefore item v.extracted)
      (m.extracted ++ v.extracted)
    exact ⟨⟨_, rfl⟩, steps.unnests.trans hmodule fun _ hk => List.mem_append_right _ hk⟩

theorem Run.unnests {items : List Handle} (h : Run m items m') :
    (∃ ex, m'.extracted = m.extracted ++ ex) ∧ m.graph.Unnests m'.graph m'.extracted := by
  induction h with
  | nil m => exact ⟨⟨[], (List.append_nil _).symm⟩, .refl ..⟩
  | cons first _ ih =>
    obtain ⟨⟨ex, hex⟩, hu⟩ := first.unnests
    obtain ⟨⟨ex', hex'⟩, hu'⟩ := ih
    exact ⟨⟨ex ++ ex', by rw [hex', hex, List.append_assoc]⟩,
      hu.trans hu' fun k hk => hex' ▸ List.mem_append_left _ hk⟩

theorem Passes.counts (h : Passes m item m') : Counts m m' := by
  cases h with
  | skip => exact .refl m
  | rootless => exact .refl m
  | root left root steps =>
    have hcounts := steps.counts
    exact ⟨hcounts.containers, hcounts.typedefs, hcounts.fundamentals⟩

theorem Run.counts {items : List Handle} (h : Run m items m') : Counts m m' := by
  induction h with
  | nil m => exact .refl m
  | cons first _ ih => exact first.counts.trans ih

theorem Passes.tags (h : Passes m item m') : KeepsTags m.graph m'.graph m'.extracted := by
  cases h with
  | skip => exact .refl _ _
  | rootless => exact .refl _ _
  | root left root steps flat free reached tags =>
    exact fun k n n' hn hn' => (tags k n n' hn hn').imp_right (List.mem_append_right _)

theorem Run.tags {items : List Handle} (h : Run m items m') :
    KeepsTags m.graph m'.graph m'.extracted := by
  induction h with
  | nil m => exact .refl _ _
  | cons first rest ih =>
    obtain ⟨⟨ex, hex⟩, _⟩ := rest.unnests
    exact first.tags.trans ih first.unnests.2 fun k hk => hex ▸ List.mem_append_left _ hk

/-! ## The module list -/

theorem Passes.items (h : Passes m item m') (hitem : item ∈ m.graph.module.items)
    (hex : ∀ k ∈ m.extracted, k ∈ m.graph.module.items) :
    (∀ k ∈ m'.extracted, k ∈ m'.graph.module.items) ∧
      (∀ k, k ∈ m'.graph.module.items ↔ k ∈ m.graph.module.items ∨ k ∈ m'.extracted) ∧
      (m.graph.module.items.Nodup → m'.graph.module.items.Nodup) := by
  have hstay (k : Handle) : k ∈ m.graph.module.items ↔ k ∈ m.graph.module.items ∨ k ∈ m.extracted :=
    ⟨.inl, fun h => h.elim id (hex k)⟩
  cases h with
  | skip => exact ⟨hex, hstay, id⟩
  | rootless => exact ⟨hex, hstay, id⟩
  | @root v _ c left root steps flat free reached tags =>
    have hmodule : v.graph.module = m.graph.module := steps.module
    have hmem (k : Handle) : k ∈ (v.graph.module.spliceBefore item v.extracted).items ↔
        k ∈ m.graph.module.items ∨ k ∈ v.extracted := by
      rw [hmodule]
      exact Module.mem_spliceBefore hitem free
    refine ⟨fun k hk => (hmem k).mpr ?_, fun k => (hmem k).trans ?_, fun hn => ?_⟩
    · exact (List.mem_append.mp hk).imp_left (hex k)
    · rw [List.mem_append, ← or_assoc, ← hstay]
    · show (v.graph.module.spliceBefore item v.extracted).items.Nodup
      rw [hmodule]
      exact Module.nodup_spliceBefore hn

theorem Run.items {items : List Handle} (h : Run m items m')
    (hitems : ∀ k ∈ items, k ∈ m.graph.module.items)
    (hex : ∀ k ∈ m.extracted, k ∈ m.graph.module.items) :
    (∀ k, k ∈ m'.graph.module.items ↔ k ∈ m.graph.module.items ∨ k ∈ m'.extracted) ∧
      (m.graph.module.items.Nodup → m'.graph.module.items.Nodup) := by
  induction h with
  | nil m => exact ⟨fun k => ⟨.inl, fun h => h.elim id (hex k)⟩, id⟩
  | @cons m m₁ m₂ item items first rest ih =>
    obtain ⟨hex₁, hmem, hn⟩ := first.items (hitems item List.mem_cons_self) hex
    obtain ⟨hmem', hn'⟩ := ih (fun k hk =>
      (hmem k).mpr (.inl (hitems k (List.mem_cons_of_mem _ hk)))) hex₁
    obtain ⟨⟨ex, hgrow⟩, _⟩ := rest.unnests
    refine ⟨fun k => ?_, fun h => hn' (hn h)⟩
    rw [hmem', hmem, or_assoc]
    refine or_congr_right ⟨fun h => h.elim (fun h => ?_) id, .inr⟩
    exact hgrow ▸ List.mem_append_left _ h

/-! ## What is flat in the end -/

theorem Passes.extracted {size : Nat} (h : Passes m item m') (hs : size ≤ m.graph.size)
    (hall : ∀ k ∈ m.extracted, Extracted size m.graph k) :
    ∀ k ∈ m'.extracted, Extracted size m'.graph k := by
  cases h with
  | skip => exact hall
  | rootless => exact hall
  | @root v _ c left root steps flat free reached tags =>
    intro k hk
    have hv : Extracted size v.graph k := by
      rcases List.mem_append.mp hk with hk | hk
      · exact (hall k hk).unnests steps.unnests
      · exact steps.extracted hs (fun _ h => nomatch h) k hk
    exact hv

theorem Run.extracted {size : Nat} {items : List Handle} (h : Run m items m')
    (hs : size ≤ m.graph.size) (hall : ∀ k ∈ m.extracted, Extracted size m.graph k) :
    ∀ k ∈ m'.extracted, Extracted size m'.graph k := by
  induction h with
  | nil m => exact hall
  | cons first rest ih =>
    exact ih (Nat.le_trans hs first.unnests.2.size) (first.extracted hs hall)

theorem Passes.flat {size : Nat} (h : Passes m item m') (hi : item.index < size)
    (hall : ∀ k ∈ m.extracted, Extracted size m.graph k) {c : Handle}
    (hroot : m.graph.Root item c) : m'.graph.Flat c := by
  cases h with
  | skip extracted =>
    rcases hall item extracted with ⟨hle, _⟩ | ⟨⟨n, hn, hb⟩, hflat, _⟩
    · exact absurd hi (Nat.not_lt.mpr hle)
    · rcases hroot with ⟨rfl, _⟩ | ⟨_, _, _, hd, _⟩
      · exact hflat
      · rw [hn] at hd
        cases hd
        cases hb
  | rootless rootless => exact absurd hroot (rootless c)
  | @root v _ c' left root steps flat free reached tags => exact hroot.unique root ▸ flat

theorem Run.flat {size : Nat} {items : List Handle} (h : Run m items m') (hs : size ≤ m.graph.size)
    (hi : ∀ k ∈ items, k.index < size) (hall : ∀ k ∈ m.extracted, Extracted size m.graph k)
    {c : Handle} (hitem : item ∈ items) (hroot : m.graph.Root item c) : m'.graph.Flat c := by
  induction h with
  | nil m => cases hitem
  | cons first rest ih =>
    obtain ⟨_, hu⟩ := first.unnests
    rcases List.mem_cons.mp hitem with rfl | hmem
    · exact rest.unnests.2.flat (first.flat (hi _ List.mem_cons_self) hall hroot)
    · exact ih (Nat.le_trans hs hu.size) (fun k hk => hi k (List.mem_cons_of_mem _ hk))
        (first.extracted hs hall) hmem (hu.root hroot)

theorem unnestStep_ok (h : Graph.unnestStep m item = .ok m') :
    (item ∈ m.extracted ∨ m.graph.root? item = .ok none) ∧ m' = m ∨
      ∃ c outer w, item ∉ m.extracted ∧ m.graph.root? item = .ok (some (c, outer)) ∧
        container (m.graph.size + 1) c outer ⟨m.graph, [], m.stats⟩ = .ok w ∧
        m' = ⟨w.graph.mapModule (·.spliceBefore item w.extracted),
          m.extracted ++ w.extracted, w.stats⟩ := by
  unfold Graph.unnestStep Graph.unnestItem at h
  by_cases hex : item ∈ m.extracted
  · rw [if_pos (by simpa using hex)] at h
    cases h
    exact .inl ⟨.inl hex, rfl⟩
  · rw [if_neg (by simpa using hex)] at h
    obtain ⟨v, hv, h⟩ := exists_of_bind h
    cases h
    obtain ⟨root, hroot, hv⟩ := exists_of_bind hv
    cases root with
    | none =>
      cases hv
      exact .inl ⟨.inr hroot, by rw [List.append_nil]⟩
    | some root =>
      obtain ⟨w, hw, hv⟩ := exists_of_bind hv
      cases hv
      exact .inr ⟨root.1, root.2, w, hex, hroot, hw, rfl⟩

theorem unnestStep_runs (hc : m.graph.InRange) (hi : item.index < m.graph.size)
    (hdown : item ∉ m.extracted → ∀ c, m.graph.Root item c →
      ∃ rank, m.graph.RankedBelow rank c ∧ rank c ≤ m.graph.size) :
    ∃ m', Graph.unnestStep m item = .ok m' ∧ Passes m item m' := by
  unfold Graph.unnestStep
  by_cases hex : item ∈ m.extracted
  · exact ⟨m, by simp [hex], .skip hex⟩
  obtain ⟨n, hn⟩ := Graph.get?_of_lt hi
  unfold Graph.unnestItem
  simp only [List.contains_iff_mem, hex, if_false]
  rcases Graph.root?_eq hn with ⟨hroot, hnone⟩ | ⟨c, outer, hroot, hc'⟩
  · refine ⟨m, ?_, .rootless hnone⟩
    simp only [hroot, bind, Except.bind, pure, Except.pure, List.append_nil]
  · obtain ⟨rank, hr, hrank⟩ := hdown hex c hc'
    obtain ⟨v, hv, hin, hflat⟩ := container_runs (m.graph.size + 1) c
      (Nat.lt_succ_of_le hrank) outer ⟨m.graph, [], m.stats⟩ hc hr
    have hfree : item ∉ v.extracted := by
      intro hmem
      rcases hc' with ⟨rfl, _⟩ | ⟨d, _, _, hd, _⟩
      · rcases hin.reached _ hmem with h | h | h
        · cases h
        · exact absurd hi (Nat.not_lt.mpr h)
        · exact Nat.lt_irrefl _ (hr.lt_of_holds h)
      · rcases hin.steps.extracted (Nat.le_refl _) (fun _ h => nomatch h) item hmem with h | h
        · exact absurd hi (Nat.not_lt.mpr h.1)
        · obtain ⟨n, hn, hb⟩ := hin.steps.unnests.hasBody.mp h.1
          rw [hd] at hn
          cases hn
          cases hb
    refine ⟨_, ?_, .root hex hc' hin.steps hflat hfree
      (fun k hk => (hin.reached k hk).resolve_left fun h => nomatch h) hin.tags⟩
    simp only [hroot, bind, Except.bind, pure, Except.pure, hv]

section
variable {rank : Handle → Nat}

theorem foldlM_runs (items : List Handle) : ∀ m : Unnesting, m.graph.InRange → m.graph.Ranked rank →
    (∀ h, rank h ≤ m.graph.size) → (∀ h ∈ items, h.index < m.graph.size) →
    ∃ m', items.foldlM Graph.unnestStep m = .ok m' ∧ Run m items m' := by
  induction items with
  | nil => exact fun m _ _ _ _ => ⟨m, rfl, .nil m⟩
  | cons item items ih =>
    intro m hc hr hrank hi
    obtain ⟨m₁, hm₁, hpass⟩ := unnestStep_runs hc (hi item List.mem_cons_self)
      fun _ c _ => ⟨rank, hr.below c, hrank c⟩
    obtain ⟨_, hu⟩ := hpass.unnests
    obtain ⟨m₂, hm₂, hrun⟩ := ih m₁ (hu.inRange hc) (hu.ranked hr)
      (fun h => Nat.le_trans (hrank h) hu.size)
      fun h hh => Nat.lt_of_lt_of_le (hi h (List.mem_cons_of_mem _ hh)) hu.size
    refine ⟨m₂, ?_, .cons hpass hrun⟩
    rw [List.foldlM_cons, hm₁]
    exact hm₂

theorem unnest_runs {g : Graph} (hc : g.InRange) (hr : g.Ranked rank) (hrank : ∀ h, rank h ≤ g.size)
    (hi : ∀ h ∈ g.module.items, h.index < g.size) :
    ∃ m, g.unnest = .ok (m.graph, m.stats) ∧ Run ⟨g, [], ⟨0, 0⟩⟩ g.module.items m := by
  obtain ⟨m, hm, hrun⟩ := foldlM_runs g.module.items ⟨g, [], ⟨0, 0⟩⟩ hc hr hrank hi
  refine ⟨m, ?_, hrun⟩
  unfold Graph.unnest
  rw [hm]
  rfl

end

end Unnesting

end CythonDecls
