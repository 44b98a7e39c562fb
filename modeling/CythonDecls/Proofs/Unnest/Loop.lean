import CythonDecls.Proofs.Graph.Splicing
import CythonDecls.Proofs.Unnest.Passes

/-!
# The loop over a growing list

The items are passed by their places in the module list, and what an item gives
up is put before it, into the same list. After each turn the loop goes on
behind the item, and there stand the items that were there all along, without
those that have moved to the front. So each turn leaves fewer of them, and the
loop ends where the walk over the items of the beginning does.
-/

namespace CythonDecls

namespace Unnesting

/-- Where the loop over the items of a graph stands. -/
structure Sweep where
  graph : Graph
  stats : UnnestStats
  index : Nat

namespace Sweep

/-- One turn: the item at the index is unnested, and the index is set behind
it. There is none where no item is left. -/
def turn (s : Sweep) : Except Fault (Option Sweep) :=
  match s.graph.module.items[s.index]? with
  | none => .ok none
  | some item => do
    let u ← s.graph.unnestItem s.stats item
    let index := match u.graph.module.position? item with
      | some p => p + 1
      | none => s.index + 1
    return some ⟨u.graph, u.stats, index⟩

/-- The loop comes to an end in a state. -/
inductive Ends : Sweep → Sweep → Prop where
  | stop {s : Sweep} (h : s.turn = .ok none) : Ends s s
  | turn {s s' s'' : Sweep} (h : s.turn = .ok (some s')) (rest : Ends s' s'') : Ends s s''

end Sweep

variable {m m' : Unnesting} {item : Handle}

/-- An item that has not moved is passed in one turn. Behind it stand the items
that are left and have not moved either. -/
theorem Passes.turn (hpass : Passes m item m') (hstep : Graph.unnestStep m item = .ok m')
    (hleft : item ∉ m.extracted) {before left : List Handle}
    (hsplit : m.graph.module.items = before ++ item :: left.filter (· ∉ m.extracted))
    (hn : m.graph.module.items.Nodup) :
    ∃ front, Sweep.turn ⟨m.graph, m.stats, before.length⟩ =
        .ok (some ⟨m'.graph, m'.stats, (front ++ [item]).length⟩) ∧
      m'.graph.module.items = (front ++ [item]) ++ left.filter (· ∉ m'.extracted) ∧
      m'.graph.module.items.Nodup := by
  have hat : m.graph.module.items[before.length]? = some item := by simp [hsplit]
  obtain ⟨front, hfront, hn'⟩ : ∃ front,
      m'.graph.module.items = front ++ item :: left.filter (· ∉ m'.extracted) ∧
        m'.graph.module.items.Nodup := by
    cases hpass with
    | skip hmoved => exact absurd hmoved hleft
    | rootless => exact ⟨before, hsplit, hn⟩
    | @root v _ c _ root steps flat free reached tags =>
      rw [← steps.module] at hsplit hn
      obtain ⟨front, hfront⟩ : ∃ front, (v.graph.module.spliceBefore item v.extracted).items =
          front ++ item :: (left.filter (· ∉ m.extracted)).filter (· ∉ v.extracted) :=
        ⟨_, Module.spliceBefore_items hn hsplit⟩
      refine ⟨front, ?_, Module.nodup_spliceBefore hn⟩
      rw [List.filter_filter] at hfront
      refine hfront.trans ?_
      simp [not_or, Bool.and_comm]
  have hmoved : ¬m.extracted.contains item = true := by simpa using hleft
  unfold Graph.unnestStep at hstep
  rw [if_neg hmoved] at hstep
  cases hu : m.graph.unnestItem m.stats item with
  | error e =>
    rw [hu] at hstep
    cases hstep
  | ok u =>
    rw [hu] at hstep
    cases hstep
    refine ⟨front, ?_, by simpa using hfront, hn'⟩
    have hnot := Module.not_mem_before hfront hn'
    unfold Sweep.turn
    simp only [hat, hu, bind, Except.bind, Module.position?_of_split hfront hnot,
      List.length_append]
    rfl

section
variable {rank : Handle → Nat}

/-- The loop goes through the items that are left and have not moved, and ends behind them. -/
theorem sweep_ends (items : List Handle) : ∀ (m : Unnesting) (before : List Handle),
    m.graph.InRange → m.graph.Ranked rank → (∀ h, rank h ≤ m.graph.size) →
    (∀ h ∈ items, h.index < m.graph.size) → m.graph.module.items.Nodup →
    m.graph.module.items = before ++ items.filter (· ∉ m.extracted) →
    ∃ m' index, items.foldlM Graph.unnestStep m = .ok m' ∧
      Sweep.Ends ⟨m.graph, m.stats, before.length⟩ ⟨m'.graph, m'.stats, index⟩ := by
  induction items with
  | nil =>
    intro m before _ _ _ _ _ hsplit
    refine ⟨m, before.length, rfl, .stop ?_⟩
    have hend : m.graph.module.items[before.length]? = none := by simp [hsplit]
    simp only [Sweep.turn, hend]
  | cons item items ih =>
    intro m before hc hr hrank hi hn hsplit
    rw [List.foldlM_cons]
    by_cases hmoved : item ∈ m.extracted
    · -- an item that has moved stands before the index, so the loop does not come to it
      have hskip : Graph.unnestStep m item = .ok m := if_pos (by simpa using hmoved)
      rw [List.filter_cons_of_neg (by simpa using hmoved)] at hsplit
      rw [hskip]
      exact ih m before hc hr hrank (fun h hh => hi h (List.mem_cons_of_mem _ hh)) hn hsplit
    · obtain ⟨m₁, hm₁, hpass⟩ := unnestStep_runs hc (hi item List.mem_cons_self)
        fun _ c _ => ⟨rank, hr.below c, hrank c⟩
      obtain ⟨_, hu⟩ := hpass.unnests
      rw [List.filter_cons_of_pos (by simpa using hmoved)] at hsplit
      obtain ⟨front, hturn, hsplit₁, hn₁⟩ := hpass.turn hm₁ hmoved hsplit hn
      obtain ⟨m₂, index, hm₂, hends⟩ := ih m₁ (front ++ [item]) (hu.inRange hc) (hu.ranked hr)
        (fun h => Nat.le_trans (hrank h) hu.size)
        (fun h hh => Nat.lt_of_lt_of_le (hi h (List.mem_cons_of_mem _ hh)) hu.size) hn₁ hsplit₁
      rw [hm₁]
      exact ⟨m₂, index, hm₂, .turn hturn hends⟩

end

theorem container_ends {g : Graph} (hc : g.InRange) (ha : g.Acyclic) (c : Handle) (outer : String)
    (stats : UnnestStats) :
    ∃ u, container (g.size + 1) c outer ⟨g, [], stats⟩ = .ok u := by
  obtain ⟨u, hu, _⟩ := container_runs (g.size + 1) c (Nat.lt_succ_of_le (g.inside_le c)) outer
    ⟨g, [], stats⟩ hc (ha.ranked.below c)
  exact ⟨u, hu⟩

end Unnesting

theorem Graph.Acyclic.sweep_ends {g : Graph} (ha : g.Acyclic) (hc : g.InRange)
    (hi : ∀ h ∈ g.module.items, h.index < g.size) (hn : g.module.items.Nodup) :
    ∃ s, Unnesting.Sweep.Ends ⟨g, ⟨0, 0⟩, 0⟩ s ∧ g.unnest = .ok (s.graph, s.stats) := by
  obtain ⟨m, index, hm, hends⟩ := Unnesting.sweep_ends g.module.items ⟨g, [], ⟨0, 0⟩⟩ [] hc
    ha.ranked g.inside_le hi hn (by simp)
  refine ⟨_, hends, ?_⟩
  unfold Graph.unnest
  rw [hm]
  rfl

end CythonDecls
