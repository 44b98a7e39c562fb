import CythonDecls.Proofs.Pxd.EnumConstants
import CythonDecls.Proofs.Translation.Walks
import CythonDecls.Proofs.Unnest.Handles

/-!
# Every handle names a node

Whatever a translator was fed, units that failed included, the handles that it
keeps are those of nodes, and types are made of earlier nodes. So nothing that
reads its graph meets a handle without a node or follows a type without an end,
before unnesting and after it.
-/

namespace CythonDecls

namespace Pxd

variable {g : Graph}

theorem constants_ok (hg : g.Closed) (hi : ∀ h ∈ g.module.items, h.index < g.size) :
    ∃ lines, constants g = .ok lines := by
  obtain ⟨es, hes, _⟩ := enums_run hg hi
  unfold constants
  rw [hes]
  exact ⟨_, rfl⟩

/-- All that is read of a graph for its output comes to a result. -/
structure Readable (g : Graph) : Prop where
  render : ∀ filter, ∃ lines, render g filter = .ok lines
  constants : ∃ lines, constants g = .ok lines
  build : ∀ names (h : Handle) inner n, h.index < g.size → h.index < n →
    ∃ text, Declarator.build ⟨g, names⟩ n h inner = .ok text
  collect : ∀ (h : Handle) n, h.index < g.size → h.index < n →
    ∃ found, collect g n [] h = .ok found

theorem readable (hg : g.WellFormed) : Readable g := by
  have hi := fun h => hg.item_lt (h := h)
  constructor
  case render =>
    intro filter
    obtain ⟨_, _, hps, _⟩ := prints_run hg.closed hi filter
    exact ⟨_, hps.lines⟩
  case constants => exact constants_ok hg.closed hi
  case build => exact fun names h inner n hh hn => build_ok ⟨g, names⟩ hg.closed n h inner hn hh
  case collect =>
    intro h n hh hn
    obtain ⟨found, hfound, _⟩ := collect_ok hg.closed n [] h (fun _ hk => nomatch hk) hn hh
    exact ⟨found, hfound⟩

end Pxd

namespace Translator

/-- Every handle that a translator keeps names a node. -/
structure Whole (t : Translator) : Prop where
  graph : t.graph.WellFormed
  typedefs : ∀ name h, t.typedefs.find? name = some h → h.index < t.graph.size
  containers : ∀ kind tag h, (t.containers kind).find? tag = some h → h.index < t.graph.size
  enums : ∀ tag h, t.enums.find? tag = some h → h.index < t.graph.size
  functions : ∀ name h, t.functions.find? name = some h → h.index < t.graph.size
  hoisted : ∀ h ∈ t.hoisted, h.index < t.graph.size

theorem Sound.whole {t : Translator} (s : t.Sound) : t.Whole where
  graph := ⟨s.closed, fun key h hk => Graph.lt_of_get? (s.fundamentals key h hk), s.items⟩
  typedefs name h hn := by
    obtain ⟨_, hd, _⟩ := s.typedefs name h hn
    exact Graph.lt_of_get? hd
  containers kind tag h hn := by
    obtain ⟨_, hc, _⟩ := s.containers kind tag h hn
    exact Graph.lt_of_get? hc
  enums tag h hn := by
    obtain ⟨_, he, _⟩ := s.enums tag h hn
    exact Graph.lt_of_get? he
  functions name h hn := by
    obtain ⟨_, hf, _⟩ := s.functions name h hn
    exact Graph.lt_of_get? hf
  hoisted h hh := by
    obtain ⟨_, hn, _⟩ := s.hoisted h hh
    exact Graph.lt_of_get? hn

/-- After any units, every handle names a node and the graph can be read to its end. Where
unnesting it ends, the same holds of what comes out, and no field loop of it, on this or any
graph, runs past the fields that there are. -/
theorem handles_closed (us : List SourceUnit) :
    (start.feedAll us).Whole ∧ Pxd.Readable (start.feedAll us).graph ∧
      Safely (start.feedAll us).graph.unnest (fun r => r.1.WellFormed ∧ Pxd.Readable r.1) ∧
      ∀ n c outer i (u v : Unnesting),
        (List.range i).foldlM (Unnesting.field (Unnesting.container n) c outer) u = .ok v →
        i < (u.graph.container? c).elim 0 (·.fields.length) → (v.field? c i).isSome = true := by
  have hw := (Sound.start.feedAll us).1.whole
  refine ⟨hw, Pxd.readable hw.graph, ?_, fun n c outer i u v => Unnesting.field_stays⟩
  obtain he | ⟨r, hr, hwf⟩ := Graph.unnest_safe hw.graph
  · exact .inl he
  · exact .inr ⟨r, hr, hwf, Pxd.readable hwf⟩

end Translator

end CythonDecls
