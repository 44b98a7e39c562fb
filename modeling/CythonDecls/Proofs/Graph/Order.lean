import CythonDecls.Proofs.Graph.Items

/-!
# Which item comes first

Two items that no edit moves keep their order. An item that is put before
another comes behind all that was before that one.
-/

namespace CythonDecls.Module

def Precedes (m : Module) (a b : Handle) : Prop := [a, b].Sublist m.items

instance (m : Module) (a b : Handle) : Decidable (m.Precedes a b) :=
  inferInstanceAs (Decidable ([a, b].Sublist m.items))

variable {m : Module} {a b c h : Handle}

theorem Precedes.mem_right (hp : m.Precedes a b) : b ∈ m.items :=
  hp.subset (List.mem_cons_of_mem _ List.mem_cons_self)

theorem precedes_of_split {before behind : List Handle} (hs : m.items = before ++ b :: behind)
    (ha : a ∈ before) : m.Precedes a b := by
  unfold Precedes
  rw [hs]
  exact (List.singleton_sublist.mpr ha).append (List.singleton_sublist.mpr List.mem_cons_self)

theorem mem_of_sublist {before behind : List Handle} (hn : (before ++ b :: behind).Nodup)
    (hp : [a, b].Sublist (before ++ b :: behind)) : a ∈ before := by
  obtain ⟨_, hrest, hdisjoint⟩ := List.nodup_append.mp hn
  obtain ⟨hb, _⟩ := List.nodup_cons.mp hrest
  have hnot : b ∉ before := fun hmem => hdisjoint b hmem b List.mem_cons_self rfl
  obtain ⟨l₁, l₂, hl, h₁, h₂⟩ := List.sublist_append_iff.mp hp
  cases l₁ with
  | nil =>
    -- then both are in what starts with the later one
    rw [List.nil_append] at hl
    subst hl
    cases h₂ with
    | cons _ h => exact absurd (h.subset (List.mem_cons_of_mem _ List.mem_cons_self)) hb
    | cons_cons _ h => exact absurd (h.subset List.mem_cons_self) hb
  | cons x l₁ =>
    obtain ⟨rfl, _⟩ := List.cons_eq_cons.mp hl
    exact h₁.subset List.mem_cons_self

theorem Precedes.mem_before (hp : m.Precedes a b) (hn : m.items.Nodup)
    {before behind : List Handle} (hs : m.items = before ++ b :: behind) : a ∈ before :=
  mem_of_sublist (hs ▸ hn) (hs ▸ hp)

theorem Precedes.trans (hn : m.items.Nodup) (h₁ : m.Precedes a b) (h₂ : m.Precedes b c) :
    m.Precedes a c := by
  obtain ⟨before, behind, hs⟩ := List.append_of_mem h₂.mem_right
  obtain ⟨front, back, rfl⟩ := List.append_of_mem (h₂.mem_before hn hs)
  have hs' : m.items = front ++ b :: (back ++ c :: behind) := by simp [hs]
  exact precedes_of_split hs (List.mem_append_left _ (h₁.mem_before hn hs'))

theorem precedes_or (ha : a ∈ m.items) (hb : b ∈ m.items) (hne : a ≠ b) :
    m.Precedes a b ∨ m.Precedes b a := by
  obtain ⟨before, behind, hs⟩ := List.append_of_mem hb
  by_cases hmem : a ∈ before
  · exact .inl (precedes_of_split hs hmem)
  · rw [hs, List.mem_append, List.mem_cons] at ha
    have hbehind : a ∈ behind := (ha.resolve_left hmem).resolve_left hne
    apply Or.inr
    unfold Precedes
    rw [hs]
    apply List.Sublist.trans ?_ (List.sublist_append_right ..)
    exact (List.singleton_sublist.mpr hbehind).cons_cons b

theorem Precedes.asymm (hn : m.items.Nodup) (hp : m.Precedes a b) : ¬m.Precedes b a := by
  intro hq
  obtain ⟨before, behind, hs⟩ := List.append_of_mem hp.mem_right
  have hself : m.Precedes b b := hq.trans hn hp
  rw [hs] at hn
  obtain ⟨_, _, hdisjoint⟩ := List.nodup_append.mp hn
  exact hdisjoint b (hself.mem_before (hs ▸ hn) hs) b List.mem_cons_self rfl

/-! ## Edits at the end -/

theorem Precedes.push (hp : m.Precedes a b) (h : Handle) : (m.push h).Precedes a b := by
  unfold Module.push
  split
  · exact hp
  · exact List.Sublist.trans hp (List.sublist_append_left ..)

theorem Precedes.pushAll {hs : List Handle} : ∀ {m : Module}, m.Precedes a b →
    (hs.foldl Module.push m).Precedes a b := by
  induction hs with
  | nil => exact id
  | cons h hs ih => exact fun hp => ih (hp.push h)

theorem Precedes.remove (hp : m.Precedes a b) (ha : a ≠ h) (hb : b ≠ h) :
    (m.remove h).Precedes a b := by
  have hsub := List.Sublist.erase h hp
  rwa [List.erase_of_not_mem (by simp [ha.symm, hb.symm])] at hsub

theorem precedes_push (ha : a ∈ m.items) (hh : h ∉ m.items) : (m.push h).Precedes a h := by
  have hc : ¬m.contains h = true := fun hc => hh (List.contains_iff_mem.mp hc)
  unfold Module.push
  rw [if_neg hc]
  exact precedes_of_split rfl ha

theorem precedes_pushAll {hs : List Handle} : ∀ {m : Module}, a ∈ m.items → h ∉ m.items →
    h ∈ hs → (hs.foldl Module.push m).Precedes a h := by
  induction hs with
  | nil => exact fun _ _ hh => absurd hh List.not_mem_nil
  | cons k hs ih =>
    intro m ha hnew hh
    by_cases hk : h = k
    · subst hk
      exact (precedes_push ha hnew).pushAll
    · refine ih (mem_push.mpr (.inl ha)) ?_ ((List.mem_cons.mp hh).resolve_left hk)
      exact fun hmem => (mem_push.mp hmem).elim hnew hk

theorem precedes_of_pushAll {hs : List Handle} (ha : a ∈ m.items)
    (hb : b ∈ (hs.foldl Module.push m).items) (hold : b ∈ m.items → m.Precedes a b) :
    (hs.foldl Module.push m).Precedes a b := by
  by_cases hm : b ∈ m.items
  · exact (hold hm).pushAll
  · exact precedes_pushAll ha hm ((mem_pushAll.mp hb).resolve_left hm)

/-! ## Edits before an item -/

section
variable {anchor : Handle} (hitem : anchor ∈ m.items)
include hitem

theorem Precedes.putBefore (hp : m.Precedes a b) (hne : h ≠ anchor) (ha : a ≠ h) (hb : b ≠ h) :
    (m.putBefore anchor h).Precedes a b := by
  obtain ⟨before, behind, herase, hput⟩ := putBefore_items hitem hne
  have hsub : [a, b].Sublist (before ++ anchor :: behind) := herase ▸ hp.remove ha hb
  unfold Precedes
  rw [hput]
  exact hsub.trans ((List.Sublist.refl before).append (List.sublist_cons_self ..))

theorem precedes_anchor (hne : h ≠ anchor) : (m.putBefore anchor h).Precedes h anchor := by
  obtain ⟨before, behind, _, hput⟩ := putBefore_items hitem hne
  have hsplit : (m.putBefore anchor h).items = (before ++ [h]) ++ anchor :: behind := by simp [hput]
  exact precedes_of_split hsplit (List.mem_append_right _ (List.mem_singleton_self h))

theorem Precedes.put (hp : m.Precedes a anchor) (hn : m.items.Nodup) (hne : h ≠ anchor)
    (ha : a ≠ h) : (m.putBefore anchor h).Precedes a h := by
  obtain ⟨before, behind, herase, hput⟩ := putBefore_items hitem hne
  have hsub : [a, anchor].Sublist (before ++ anchor :: behind) := herase ▸ hp.remove ha hne.symm
  have hnodup : (before ++ anchor :: behind).Nodup := herase ▸ hn.erase h
  exact precedes_of_split hput (mem_of_sublist hnodup hsub)

end

section
variable {anchor : Handle} {hs : List Handle}

theorem Precedes.splice (ha : a ∉ hs) (hb : b ∉ hs) (hne : anchor ∉ hs) : ∀ {m : Module},
    anchor ∈ m.items → m.Precedes a b → (m.spliceBefore anchor hs).Precedes a b := by
  unfold spliceBefore
  induction hs with
  | nil => exact fun _ hp => hp
  | cons h hs ih =>
    intro m hitem hp
    rw [List.mem_cons, not_or] at ha hb hne
    exact ih ha.2 hb.2 hne.2 ((mem_putBefore hitem (Ne.symm hne.1)).mpr (.inl hitem))
      (hp.putBefore hitem (Ne.symm hne.1) ha.1 hb.1)

theorem Precedes.spliced (ha : a ∉ hs) (hne : anchor ∉ hs) (hh : h ∈ hs) : ∀ {m : Module},
    anchor ∈ m.items → m.items.Nodup → m.Precedes a anchor →
      (m.spliceBefore anchor hs).Precedes a h := by
  induction hs with
  | nil => exact absurd hh List.not_mem_nil
  | cons k hs ih =>
    intro m hitem hn hp
    rw [List.mem_cons, not_or] at ha hne
    have hitem' := (mem_putBefore hitem (Ne.symm hne.1)).mpr (.inl hitem)
    by_cases hmem : h ∈ hs
    · exact ih ha.2 hne.2 hmem hitem' (nodup_putBefore hn)
        (hp.putBefore hitem (Ne.symm hne.1) ha.1 hne.1)
    · have hk : h = k := (List.mem_cons.mp hh).resolve_right hmem
      subst hk
      exact (hp.put hitem hn (Ne.symm hne.1) ha.1).splice ha.2 hmem hne.2 hitem'

theorem precedes_spliceBefore (hne : anchor ∉ hs) (hh : h ∈ hs) : ∀ {m : Module},
    anchor ∈ m.items → (m.spliceBefore anchor hs).Precedes h anchor := by
  induction hs with
  | nil => exact absurd hh List.not_mem_nil
  | cons k hs ih =>
    intro m hitem
    rw [List.mem_cons, not_or] at hne
    have hitem' := (mem_putBefore hitem (Ne.symm hne.1)).mpr (.inl hitem)
    by_cases hmem : h ∈ hs
    · exact ih hne.2 hmem hitem'
    · have hk : h = k := (List.mem_cons.mp hh).resolve_right hmem
      subst hk
      exact (precedes_anchor hitem (Ne.symm hne.1)).splice hmem hne.2 hne.2 hitem'

theorem precedes_of_spliced {ks : List Handle} (hne : anchor ∉ hs ++ ks) (ha : a ∈ hs) (hk : a ∉ ks)
    (hb : b ∈ ks) (hitem : anchor ∈ m.items) (hn : m.items.Nodup) :
    (m.spliceBefore anchor (hs ++ ks)).Precedes a b := by
  rw [List.mem_append, not_or] at hne
  have hsplit : m.spliceBefore anchor (hs ++ ks) =
      (m.spliceBefore anchor hs).spliceBefore anchor ks := by
    unfold spliceBefore
    exact List.foldl_append
  rw [hsplit]
  exact (precedes_spliceBefore hne.1 ha hitem).spliced hk hne.2 hb
    ((mem_spliceBefore hitem hne.1).mpr (.inl hitem)) (nodup_spliceBefore hn)

end

end CythonDecls.Module
