import CythonDecls.Proofs.Unnest.Passes

/-!
# The unnested graph

What stands as an item in the end was an item before or was extracted, so all
that items declare is flat and a second pass finds nothing to do. Apart from
the new typedefs, the graph is the one before with other tags on what was
inline and with the extracted bodies gone from the fields.
-/

namespace CythonDecls

def Graph.RootsFlat (g : Graph) : Prop := ∀ item ∈ g.module.items, ∀ c, g.Root item c → g.Flat c

namespace Unnesting

variable {g g' : Graph} {ex : List Handle} {item c : Handle} {kind : ContainerKind}
  {body : Container} {d : Typedef}

/-! ## What items declare in the end -/

theorem flat_of_extracted (hu : g.Unnests g' ex) (hex : ∀ k ∈ ex, Extracted g.size g' k)
    (hc : c ∈ ex) (hn : g'.get? c = some (.container kind body)) : g'.Flat c := by
  rcases hex c hc with ⟨hnew, _⟩ | ⟨_, hflat, _⟩
  · obtain ⟨_, _, _, he, _⟩ := hu.fresh c _ hn hnew
    cases he
  · exact hflat

theorem new_of_extracted (hex : ∀ k ∈ ex, Extracted g.size g' k) (hitem : item ∈ ex)
    (hd : g'.get? item = some (.typedef d)) : g.size ≤ item.index := by
  rcases hex item hitem with ⟨hnew, _⟩ | ⟨⟨n, hn, hb⟩, _⟩
  · exact hnew
  · rw [hd] at hn
    cases hn
    cases hb

theorem root_of_container (hu : g.Unnests g' ex) (ht : KeepsTags g g' ex) (hnot : item ∉ ex)
    (hn' : g'.get? item = some (.container kind body)) (htag : body.tag.isSome = true) :
    g.Root item item := by
  by_cases hlt : item.index < g.size
  · obtain ⟨n, hn⟩ := Graph.get?_of_lt hlt
    obtain ⟨n', hn'', hnn⟩ := hu.nodes item n hn
    rw [hn'] at hn''
    cases hn''
    have he := (ht item n _ hn hn').resolve_right hnot
    cases hnn with
    | same => exact .inl ⟨rfl, kind, body, hn, htag⟩
    | @container _ old =>
      have he : body.tag = old.tag := he
      exact .inl ⟨rfl, kind, old, hn, he ▸ htag⟩
  · exact absurd (hu.fresh item _ hn' (Nat.not_lt.mp hlt)).1 hnot

theorem root_of_typedef (hg : g.InRange) (hu : g.Unnests g' ex) (hlt : item.index < g.size)
    (hd' : g'.get? item = some (.typedef d)) (htarget : d.target = some c)
    (hc' : g'.get? c = some (.container kind body)) : g.Root item c := by
  obtain ⟨n, hn⟩ := Graph.get?_of_lt hlt
  obtain ⟨n', hn', hnn⟩ := hu.nodes item n hn
  rw [hd'] at hn'
  cases hn'
  cases hnn
  have hchild : c ∈ Node.children (.typedef d) := by
    rw [Node.children, htarget]
    exact List.mem_singleton_self c
  obtain ⟨m, hm⟩ := Graph.get?_of_lt (hg item _ hn c hchild)
  obtain ⟨m', hm', hmm⟩ := hu.nodes c m hm
  rw [hc'] at hm'
  cases hm'
  cases hmm with
  | same => exact .inr ⟨d, kind, body, hn, htarget, hm⟩
  | container => exact .inr ⟨d, kind, _, hn, htarget, hm⟩

theorem Run.rootsFlat {m : Unnesting} (h : Run ⟨g, [], ⟨0, 0⟩⟩ g.module.items m) (hg : g.InRange)
    (hi : ∀ h ∈ g.module.items, h.index < g.size) : m.graph.RootsFlat := by
  have hu : g.Unnests m.graph m.extracted := h.unnests.2
  have hex : ∀ k ∈ m.extracted, Extracted g.size m.graph k :=
    h.extracted (Nat.le_refl _) fun _ hk => nomatch hk
  have hmem := (h.items (fun _ hk => hk) fun _ hk => nomatch hk).1
  have hold (item c : Handle) (hitem : item ∈ m.graph.module.items) (hnot : item ∉ m.extracted)
      (hroot : g.Root item c) : m.graph.Flat c :=
    h.flat (Nat.le_refl _) hi (fun _ hk => nomatch hk)
      (((hmem item).mp hitem).resolve_right hnot) hroot
  rintro item hitem c (⟨rfl, kind, body, hn, htag⟩ | ⟨d, kind, body, hd, htarget, hn⟩)
  · by_cases hin : c ∈ m.extracted
    · exact flat_of_extracted hu hex hin hn
    · exact hold c c hitem hin (root_of_container hu h.tags hin hn htag)
  · by_cases hlt : item.index < g.size
    · have hnot : item ∉ m.extracted := fun hin =>
        absurd hlt (Nat.not_lt.mpr (new_of_extracted hex hin hd))
      exact hold item c hitem hnot (root_of_typedef hg hu hlt hd htarget hn)
    · obtain ⟨_, _, target, he, htarget', hin, _⟩ := hu.fresh item _ hd (Nat.not_lt.mp hlt)
      cases he
      rw [htarget] at htarget'
      cases htarget'
      exact flat_of_extracted hu hex hin hn

/-! ## The second pass -/

theorem foldlM_fixed {α β ε : Type} {f : β → α → Except ε β} {b : β} :
    ∀ {as : List α}, (∀ a ∈ as, f b a = .ok b) → as.foldlM f b = .ok b
  | [], _ => rfl
  | a :: as, h => by
    rw [List.foldlM_cons, h a List.mem_cons_self]
    exact foldlM_fixed fun a' ha' => h a' (List.mem_cons_of_mem _ ha')

theorem field_of_flat {inside : Handle → String → Unnesting → Except Fault Unnesting}
    {u : Unnesting} (hu : u.graph.InRange) (hf : u.graph.Flat c) (outer : String) (i : Nat) :
    field inside c outer u i = .ok u := by
  unfold field
  cases hfi : u.field? c i with
  | none => rfl
  | some f =>
    cases hinline : f.inline with
    | false => simp only [hinline, Bool.not_false, if_true]
    | true =>
      have hi := inline_of_field hfi hinline
      obtain ⟨_, body, hn, _, hmem, _, he⟩ := hi
      obtain ⟨n, hn⟩ := Graph.get?_of_lt (hu c _ hn f.type (he ▸ List.mem_map_of_mem hmem))
      have hb : n.hasBody = false := by
        rw [← Bool.not_eq_true]
        exact fun hb => hf f.type (inline_of_field hfi hinline) ⟨n, hn, hb⟩
      simp only [hinline, Graph.get, hn, bind, Except.bind, hb, Bool.not_true, Bool.not_false,
        Bool.false_eq_true, if_false, if_true]
      rfl

theorem container_of_flat {u : Unnesting} (hu : u.graph.InRange) (hf : u.graph.Flat c) (n : Nat)
    (outer : String) : container (n + 1) c outer u = .ok u := by
  unfold container
  exact foldlM_fixed fun i _ => field_of_flat hu hf outer i

theorem unnestStep_of_flat (hg : g.InRange) (hitem : item.index < g.size) {stats : UnnestStats}
    (hf : ∀ c, g.Root item c → g.Flat c) :
    Graph.unnestStep ⟨g, [], stats⟩ item = .ok ⟨g, [], stats⟩ := by
  obtain ⟨n, hn⟩ := Graph.get?_of_lt hitem
  unfold Graph.unnestStep Graph.unnestItem
  rcases Graph.root?_eq hn with ⟨hroot, _⟩ | ⟨c, outer, hroot, hc⟩
  · simp only [List.contains_nil, hroot]
    rfl
  · simp only [List.contains_nil, hroot, bind, Except.bind]
    rw [container_of_flat hg (hf c hc)]
    rfl

end Unnesting

namespace Graph

theorem RootsFlat.unnest {g : Graph} (hf : g.RootsFlat) (hg : g.InRange)
    (hi : ∀ h ∈ g.module.items, h.index < g.size) : g.unnest = .ok (g, ⟨0, 0⟩) := by
  unfold Graph.unnest
  rw [Unnesting.foldlM_fixed fun item hitem =>
    Unnesting.unnestStep_of_flat hg (hi item hitem) (hf item hitem)]
  rfl

/-- Where no container is inside of itself, unnesting succeeds, no inline body is left
in what an item declares, and to unnest again changes nothing. -/
theorem unnest_complete {g : Graph} (hg : g.InRange) (hi : ∀ h ∈ g.module.items, h.index < g.size)
    (ha : g.Acyclic) : ∃ g' stats, g.unnest = .ok (g', stats) ∧
      (∀ item ∈ g'.module.items, ∀ c, g'.Root item c → g'.Flat c) ∧
      g'.unnest = .ok (g', ⟨0, 0⟩) := by
  obtain ⟨m, hm, hrun⟩ := Unnesting.unnest_runs hg ha.ranked g.inside_le hi
  have hu : g.Unnests m.graph m.extracted := hrun.unnests.2
  have hflat : m.graph.RootsFlat := hrun.rootsFlat hg hi
  have hi' (h : Handle) (hh : h ∈ m.graph.module.items) : h.index < m.graph.size := by
    rcases ((hrun.items (fun _ hk => hk) fun _ hk => nomatch hk).1 h).mp hh with hh | hh
    · exact Nat.lt_of_lt_of_le (hi h hh) hu.size
    · exact (hrun.extracted (Nat.le_refl _) (fun _ hk => nomatch hk) h hh).lt_size
  exact ⟨m.graph, m.stats, hm, hflat, hflat.unnest (hu.inRange hg) hi'⟩

namespace Sample

def outerName : Typedef := ⟨"outer_t", some ⟨4⟩, none⟩

/-- `typedef struct outer { struct { struct { int x; } low, high; } range; enum { ON } state;
struct outer *next; } outer_t`. -/
def nested : Graph where
  nodes := #[.fundamental .int, .enumeration ⟨none, [⟨"ON", 0⟩], none⟩,
    .container .struct ⟨none, [⟨"x", ⟨0⟩, .readWrite, false⟩], none⟩,
    .container .struct ⟨none,
      [⟨"low", ⟨2⟩, .readWrite, true⟩, ⟨"high", ⟨2⟩, .readWrite, true⟩], none⟩,
    .container .struct ⟨some "outer", [⟨"range", ⟨3⟩, .readWrite, true⟩,
      ⟨"state", ⟨1⟩, .readWrite, true⟩, ⟨"next", ⟨5⟩, .readWrite, false⟩], none⟩,
    .pointer ⟨4⟩, .typedef outerName]
  fundamentals := Table.empty.insert "int" ⟨0⟩
  module := ⟨[⟨6⟩]⟩

theorem nested_acyclic : nested.Acyclic := .of_nodes Handle.index (by decide)

end Sample

theorem unnest_complete_nested :
    Sample.nested.InRange ∧ (∀ h ∈ Sample.nested.module.items, h.index < Sample.nested.size) ∧
      Sample.nested.Acyclic ∧ ∃ g' stats, Sample.nested.unnest = .ok (g', stats) ∧
        (∀ item ∈ g'.module.items, ∀ c, g'.Root item c → g'.Flat c) ∧
        g'.unnest = .ok (g', ⟨0, 0⟩) :=
  ⟨by decide, by decide, Sample.nested_acyclic,
    unnest_complete (by decide) (by decide) Sample.nested_acyclic⟩

/-! ## What is kept -/

/-- Unnesting only adds typedefs, each counted twice over. An old node stays as it is,
but for the tag of what was inline, and for inline fields that now are fields of a
new typedef of their type. -/
theorem unnest_preserves {g : Graph} (hg : g.InRange) (hi : ∀ h ∈ g.module.items, h.index < g.size)
    (ha : g.Acyclic) : ∃ g' stats extracted, g.unnest = .ok (g', stats) ∧
      g.Unnests g' extracted ∧ g'.fundamentals = g.fundamentals ∧
      g'.size = g.size + stats.containersExtracted ∧ g'.size = g.size + stats.typedefsCreated ∧
      (∀ h ∈ g.module.items, h ∈ g'.module.items) ∧
      (g.module.items.Nodup → g'.module.items.Nodup) := by
  obtain ⟨m, hm, hrun⟩ := Unnesting.unnest_runs hg ha.ranked g.inside_le hi
  have hcounts := hrun.counts
  obtain ⟨hmem, hnodup⟩ := hrun.items (fun _ hk => hk) fun _ hk => nomatch hk
  exact ⟨m.graph, m.stats, m.extracted, hm, hrun.unnests.2, hcounts.fundamentals,
    hcounts.containers, hcounts.typedefs, fun h hh => (hmem h).mpr (.inl hh), hnodup⟩

-- `low` and `high` share a type, which is extracted for each of them
example : Sample.nested.unnest.toOption.map (·.2) = some ⟨4, 4⟩ := by decide

theorem unnest_preserves_nested :
    Sample.nested.InRange ∧ (∀ h ∈ Sample.nested.module.items, h.index < Sample.nested.size) ∧
      Sample.nested.Acyclic ∧ ∃ g' stats extracted, Sample.nested.unnest = .ok (g', stats) ∧
        Sample.nested.Unnests g' extracted ∧ g'.fundamentals = Sample.nested.fundamentals ∧
        g'.size = Sample.nested.size + stats.containersExtracted ∧
        g'.size = Sample.nested.size + stats.typedefsCreated ∧
        (∀ h ∈ Sample.nested.module.items, h ∈ g'.module.items) ∧
        (Sample.nested.module.items.Nodup → g'.module.items.Nodup) :=
  ⟨by decide, by decide, Sample.nested_acyclic,
    unnest_preserves (by decide) (by decide) Sample.nested_acyclic⟩

end Graph

end CythonDecls
