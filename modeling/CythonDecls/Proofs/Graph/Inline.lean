import CythonDecls.Proofs.Graph.Closed
import Mathlib.Data.Finset.Card
import Mathlib.Data.List.Basic
import Mathlib.Logic.Relation

/-!
# Inline bodies

A field is inline when its type is defined on the spot. In a graph that a
translation made, the bodies can be put in a row in which each stands behind
those that are its inline fields, so following inline fields comes to an end.
It does so in any graph in which no container is inside of itself.
-/

namespace CythonDecls.Graph

def Inline (g : Graph) (h k : Handle) : Prop :=
  ∃ kind c, g.get? h = some (.container kind c) ∧ ∃ f ∈ c.fields, f.inline = true ∧ f.type = k

def HasBody (g : Graph) (h : Handle) : Prop := ∃ n, g.get? h = some n ∧ n.hasBody = true

def Flat (g : Graph) (h : Handle) : Prop := ∀ k, g.Inline h k → ¬g.HasBody k

/-- The body `k` stands in place inside of `h`. -/
def Holds (g : Graph) (h k : Handle) : Prop := g.Inline h k ∧ g.HasBody k

def Ranked (g : Graph) (rank : Handle → Nat) : Prop :=
  ∀ h k, g.Inline h k → g.HasBody k → rank k < rank h

/-- Following inline fields that have bodies from `c` leads down in `rank`. -/
def RankedBelow (g : Graph) (rank : Handle → Nat) (c : Handle) : Prop :=
  ∀ h k, Relation.ReflTransGen g.Holds c h → g.Holds h k → rank k < rank h

theorem Ranked.below {g : Graph} {rank : Handle → Nat} (hr : g.Ranked rank) (c : Handle) :
    g.RankedBelow rank c := fun h k _ hk => hr h k hk.1 hk.2

theorem RankedBelow.lt_of_holds {g : Graph} {rank : Handle → Nat} {c k : Handle}
    (hr : g.RankedBelow rank c) (hk : Relation.TransGen g.Holds c k) : rank k < rank c := by
  induction hk with
  | single hk => exact hr _ _ .refl hk
  | tail hck hk ih => exact Nat.lt_trans (hr _ _ hck.to_reflTransGen hk) ih

theorem RankedBelow.held {g : Graph} {rank : Handle → Nat} {c k : Handle}
    (hr : g.RankedBelow rank c) (hk : g.Holds c k) : g.RankedBelow rank k :=
  fun h l hkh hl => hr h l (.head hk hkh) hl

theorem hasBody_of_holds {g : Graph} {h k : Handle} (hk : Relation.TransGen g.Holds h k) :
    g.HasBody k := by
  cases hk with
  | single hi => exact hi.2
  | tail _ hi => exact hi.2

theorem Flat.not_holds {g : Graph} {h k : Handle} (hf : g.Flat h) :
    ¬Relation.TransGen g.Holds h k := by
  intro hk
  obtain ⟨l, hl, _⟩ := Relation.TransGen.head'_iff.mp hk
  exact hf l hl.1 hl.2

theorem hasBody_of_field {g : Graph} {h : Handle} {kind : ContainerKind} {c : Container} {f : Field}
    (hc : g.get? h = some (.container kind c)) (hf : f ∈ c.fields) : g.HasBody h := by
  refine ⟨_, hc, ?_⟩
  cases hfields : c.fields with
  | nil =>
    rw [hfields] at hf
    cases hf
  | cons _ _ => simp [Node.hasBody, Node.isAggregate, Node.isOpaque, hfields]

theorem Inline.hasBody {g : Graph} {h k : Handle} (hi : g.Inline h k) : g.HasBody h := by
  obtain ⟨kind, c, hc, f, hf, _⟩ := hi
  exact hasBody_of_field hc hf

theorem HasBody.of_get? {g : Graph} {h : Handle} {n : Node} (hb : g.HasBody h)
    (hn : g.get? h = some n) : n.hasBody = true := by
  obtain ⟨m, hm, hb⟩ := hb
  rw [hn] at hm
  cases hm
  exact hb

theorem not_inline_enumeration {g : Graph} {h k : Handle} {e : Enumeration}
    (hn : g.get? h = some (.enumeration e)) : ¬g.Inline h k := by
  rintro ⟨kind, c, hc, _⟩
  rw [hn] at hc
  cases hc

/-! ## No cycles -/

def Acyclic (g : Graph) : Prop := ∀ h, ¬Relation.TransGen g.Inline h h

theorem Acyclic.of_lt {g : Graph} (rank : Handle → Nat)
    (hlt : ∀ h k, g.Inline h k → rank k < rank h) : g.Acyclic := by
  have hdown {h k : Handle} (hk : Relation.TransGen g.Inline h k) : rank k < rank h := by
    induction hk with
    | single hi => exact hlt _ _ hi
    | tail _ hi ih => exact Nat.lt_trans (hlt _ _ hi) ih
  exact fun h hh => Nat.lt_irrefl _ (hdown hh)

theorem Acyclic.of_nodes {g : Graph} (rank : Handle → Nat)
    (hlt : ∀ i : Fin g.nodes.size, ∀ c ∈ (g.nodeAt i).container?, ∀ f ∈ c.fields,
      f.inline = true → rank f.type < rank ⟨i⟩) : g.Acyclic := by
  refine .of_lt rank ?_
  rintro h k ⟨kind, c, hc, f, hf, hinline, rfl⟩
  exact (g.forall_get?_iff fun h n => ∀ c ∈ n.container?, ∀ f ∈ c.fields,
    f.inline = true → rank f.type < rank h).mpr hlt h _ hc c rfl f hf hinline

open Classical in
/-- The number of nodes at any depth inside of `h`. -/
noncomputable def inside (g : Graph) (h : Handle) : Nat :=
  ((Finset.range g.size).filter fun i => Relation.TransGen g.Inline h ⟨i⟩).card

theorem inside_le (g : Graph) (h : Handle) : g.inside h ≤ g.size := by
  classical
  exact (Finset.card_filter_le ..).trans_eq (Finset.card_range _)

/-- Less is inside of what is inside, if that is not inside of itself. -/
theorem inside_lt {g : Graph} {h k : Handle} (hi : g.Inline h k) (hk : k.index < g.size)
    (hkk : ¬Relation.TransGen g.Inline k k) : g.inside k < g.inside h := by
  classical
  refine Finset.card_lt_card ((Finset.ssubset_iff_of_subset ?_).mpr ⟨k.index, ?_, ?_⟩)
  · intro i hmem
    obtain ⟨hlt, hk⟩ := Finset.mem_filter.mp hmem
    exact Finset.mem_filter.mpr ⟨hlt, .head hi hk⟩
  · exact Finset.mem_filter.mpr ⟨Finset.mem_range.mpr hk, .single hi⟩
  · exact fun hmem => hkk (Finset.mem_filter.mp hmem).2

theorem Acyclic.ranked {g : Graph} (ha : g.Acyclic) : g.Ranked g.inside :=
  fun _ k hi ⟨_, hn, _⟩ => inside_lt hi (lt_of_get? hn) (ha k)

/-- Going in from `c` comes to an end. -/
def Bottoms (g : Graph) (c : Handle) : Prop := Acc (fun k h => g.Holds h k) c

theorem Bottoms.held {g : Graph} {c k : Handle} (hc : g.Bottoms c) (hk : g.Holds c k) :
    g.Bottoms k := Acc.inv hc hk

theorem Bottoms.not_inside_itself {g : Graph} {c : Handle} (hc : g.Bottoms c) :
    ¬Relation.TransGen g.Inline c c := by
  induction hc with
  | intro c _ ih =>
    intro hcc
    obtain ⟨k, hi, hkc⟩ := Relation.TransGen.head'_iff.mp hcc
    have hkk : Relation.TransGen g.Inline k k := .tail' hkc hi
    obtain ⟨l, hl, _⟩ := Relation.TransGen.head'_iff.mp hkk
    exact ih k ⟨hi, hl.hasBody⟩ hkk

theorem Bottoms.rankedBelow {g : Graph} {c : Handle} (hc : g.Bottoms c) :
    g.RankedBelow g.inside c := by
  intro h k hch hk
  have hh : g.Bottoms h := by
    clear hk
    induction hch with
    | refl => exact hc
    | tail _ hk ih => exact ih.held hk
  obtain ⟨n, hn, _⟩ := hk.2
  exact inside_lt hk.1 (lt_of_get? hn) (hh.held hk).not_inside_itself

/-! ## Bodies in a row -/

/-- Bodies end behind the bodies that are their inline fields, where those of
`seen` have ended before. -/
def Nested (g : Graph) : List Handle → List Handle → Prop
  | _, [] => True
  | seen, h :: hs => (∀ k, g.Inline h k → k ∈ seen) ∧ g.Nested (seen ++ [h]) hs

theorem nested_append {g : Graph} {seen hs ks : List Handle} :
    g.Nested seen (hs ++ ks) ↔ g.Nested seen hs ∧ g.Nested (seen ++ hs) ks := by
  induction hs generalizing seen with
  | nil => simp [Nested]
  | cons h hs ih => simp [Nested, ih, and_assoc]

theorem Nested.mono {g g' : Graph} {seen seen' hs : List Handle} (hn : g.Nested seen hs)
    (hs' : ∀ h ∈ seen, h ∈ seen') (hi : ∀ h ∈ hs, ∀ k, g'.Inline h k → g.Inline h k) :
    g'.Nested seen' hs := by
  induction hs generalizing seen seen' with
  | nil => trivial
  | cons h hs ih =>
    refine ⟨fun k hk => hs' k (hn.1 k (hi h List.mem_cons_self k hk)), ih hn.2 ?_ ?_⟩
    · intro k hk
      rcases List.mem_append.mp hk with hk | hk
      · exact List.mem_append_left _ (hs' k hk)
      · exact List.mem_append_right _ hk
    · exact fun k hk => hi k (List.mem_cons_of_mem _ hk)

/-- The places in a row of all bodies are ranks. -/
theorem Nested.ranked {g : Graph} {hs : List Handle} (hn : g.Nested [] hs)
    (hall : ∀ h, g.HasBody h → h ∈ hs) : g.Ranked (hs.idxOf ·) := by
  intro h k hi _
  obtain ⟨before, behind, rfl, hnot⟩ := List.eq_append_cons_of_mem (hall h hi.hasBody)
  have hk : k ∈ before := (nested_append.mp hn).2.1 k hi
  show List.idxOf k _ < List.idxOf h _
  rw [List.idxOf_append_of_mem hk, List.idxOf_append_of_notMem hnot, List.idxOf_cons_self]
  exact List.idxOf_lt_length_of_mem hk

end CythonDecls.Graph
