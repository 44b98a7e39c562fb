import CythonDecls.Proofs.Pxd.Handles
import CythonDecls.Pxd.Generate

/-!
# The page of a unit

What is generated for a unit are the blocks of its unnested graph, in the extern
block of the header where there is to be one.
-/

namespace CythonDecls.Pxd

/-- The output `o` for a header is made of the blocks `ps` of `g'`, which `g` is unnested to. -/
structure Output.Shows (o : Output) (header : String) (options : Options) (g g' : Graph)
    (ps : List (Table Handle String × Block)) : Prop where
  unnest : g.unnest = .ok (g', o.stats)
  prints : Prints g' options.filter ps
  lines : o.lines = page options.externBlock header (stacked (ps.map (·.2)))

/-- There is one graph and one list of blocks that an output shows. -/
theorem Output.Shows.unique {o : Output} {header : String} {options : Options} {g g' : Graph}
    {ps ps' : List (Table Handle String × Block)} (h : o.Shows header options g g' ps)
    {r : Graph × UnnestStats} (hr : r ∈ g.unnest.toOption)
    (hps' : ps' ∈ (Rendering.named r.1 options.filter .start r.1.module.items).toOption) :
    r.1 = g' ∧ ps' = ps := by
  have hr := Graph.eq_ok_of_mem_toOption hr
  rw [h.unnest] at hr
  cases hr
  have hps' := Graph.eq_ok_of_mem_toOption hps'
  rw [h.prints.named] at hps'
  cases hps'
  exact ⟨rfl, rfl⟩

theorem generate_runs {u : SourceUnit} {g g' : Graph} (hg : u.translate = .ok g)
    {stats : UnnestStats} (hunnest : g.unnest = .ok (g', stats)) (hclosed : g'.Closed)
    (hi : ∀ h ∈ g'.module.items, h.index < g'.size) (header : String) (options : Options)
    {ps : List (Table Handle String × Block)} (hps : Prints g' options.filter ps) :
    ∃ o, generate u header options = .ok o ∧ o.Shows header options g g' ps := by
  obtain ⟨constantLines, hconstants⟩ := constants_ok hclosed hi
  let o : Output := {
    header
    lines := page options.externBlock header (stacked (ps.map (·.2)))
    constants := constantLines
    items := g'.module.items.length
    stats }
  have houtput : Output.ofGraph g header options = .ok o := by
    unfold Output.ofGraph
    simp only [hunnest, hps.lines, hconstants, bind, Except.bind, page_eq]
    rfl
  have hgenerate : generate u header options = .ok o := by
    unfold generate
    simp only [hg, houtput]
  exact ⟨o, hgenerate, hunnest, hps, rfl⟩

theorem generate_shows {u : SourceUnit} {header : String} {options : Options} {o : Output}
    (ho : generate u header options = .ok o) : ∃ g g', u.translate = .ok g ∧ g.WellFormed ∧
      g'.WellFormed ∧ ∃ ps, o.Shows header options g g' ps := by
  cases hg : u.translate with
  | error e => simp [generate, hg] at ho
  | ok g =>
    obtain ⟨t, ht, rfl⟩ := SourceUnit.translate_ok hg
    have hwf : t.graph.WellFormed := by
      have hs := (Translator.Sound.start.feed u).1
      rw [ht] at hs
      exact hs.whole.graph
    cases hunnest : t.graph.unnest with
    | error e => simp [generate, hg, Output.ofGraph, hunnest, bind, Except.bind] at ho
    | ok r =>
      obtain ⟨g', stats⟩ := r
      have hwf' : g'.WellFormed := by
        rcases Graph.unnest_safe hwf with he | ⟨_, he, hwf'⟩
        · rw [hunnest] at he
          cases he
        · rw [hunnest] at he
          cases he
          exact hwf'
      have hi := fun h => hwf'.item_lt (h := h)
      obtain ⟨ps, _, hps, _⟩ := prints_run hwf'.closed hi options.filter
      obtain ⟨o', ho', hshows⟩ := generate_runs hg hunnest hwf'.closed hi header options hps
      rw [ho] at ho'
      cases ho'
      exact ⟨t.graph, g', rfl, hwf, hwf', ps, hshows⟩

end CythonDecls.Pxd
