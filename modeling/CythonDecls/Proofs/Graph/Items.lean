import CythonDecls.Graph.Module

/-!
# Items of the module list

Membership and order after each edit of the module list.
-/

namespace CythonDecls.Module

@[simp] theorem mem_push {m : Module} {h k : Handle} :
    k ∈ (m.push h).items ↔ k ∈ m.items ∨ k = h := by
  unfold push contains
  split
  · rename_i hc
    have hm : h ∈ m.items := by simpa using hc
    constructor
    · exact Or.inl
    · rintro (hk | hk)
      · exact hk
      · exact hk ▸ hm
  · simp

theorem mem_pushAll {hs : List Handle} : ∀ {m : Module} {k : Handle},
    k ∈ (hs.foldl push m).items ↔ k ∈ m.items ∨ k ∈ hs := by
  induction hs with
  | nil => simp
  | cons h hs ih =>
    intro m k
    rw [List.foldl_cons, ih, mem_push, List.mem_cons, or_assoc]

theorem mem_of_mem_remove {m : Module} {h k : Handle} (hk : k ∈ (m.remove h).items) :
    k ∈ m.items :=
  List.mem_of_mem_erase hk

theorem mem_remove_of_ne {m : Module} {h k : Handle} (hne : k ≠ h) (hk : k ∈ m.items) :
    k ∈ (m.remove h).items :=
  (List.mem_erase_of_ne hne).mpr hk

/-! ## No repeats -/

theorem nodup_push {m : Module} {h : Handle} (hm : m.items.Nodup) : (m.push h).items.Nodup := by
  unfold push contains
  split
  · exact hm
  · rename_i hc
    have hnot : h ∉ m.items := by simpa using hc
    rw [List.nodup_append]
    refine ⟨hm, List.pairwise_singleton .., fun k hk l hl he => ?_⟩
    rw [he, List.mem_singleton.mp hl] at hk
    exact hnot hk

theorem nodup_pushAll {hs : List Handle} : ∀ {m : Module}, m.items.Nodup →
    (hs.foldl push m).items.Nodup := by
  induction hs with
  | nil => exact id
  | cons h hs ih => exact fun hm => ih (nodup_push hm)

theorem nodup_remove {m : Module} {h : Handle} (hm : m.items.Nodup) : (m.remove h).items.Nodup :=
  hm.erase h

theorem nodup_insert {m : Module} {index : Nat} {h : Handle} (hm : m.items.Nodup) :
    (m.insert index h).items.Nodup := by
  simp only [insert, List.perm_middle.nodup_iff, List.take_append_drop, List.nodup_cons]
  exact ⟨hm.not_mem_erase, hm.erase h⟩

theorem nodup_putBefore {m : Module} {anchor h : Handle} (hm : m.items.Nodup) :
    (m.putBefore anchor h).items.Nodup := by
  unfold putBefore
  split
  · exact nodup_insert hm
  · exact nodup_push hm

theorem nodup_spliceBefore {anchor : Handle} {hs : List Handle} : ∀ {m : Module},
    m.items.Nodup → (m.spliceBefore anchor hs).items.Nodup := by
  unfold spliceBefore
  induction hs with
  | nil => exact id
  | cons h hs ih => exact fun hm => ih (nodup_putBefore hm)

/-! ## Putting items before another -/

theorem position?_of_split {m : Module} {h : Handle} {before behind : List Handle}
    (hsplit : m.items = before ++ h :: behind) (hnot : h ∉ before) :
    m.position? h = some before.length := by
  unfold position?
  rw [hsplit, List.idxOf?_eq_some_iff]
  refine ⟨by simp, by simp, fun j hj he => hnot ?_⟩
  rw [List.getElem_append_left hj] at he
  exact he ▸ List.getElem_mem hj

theorem not_mem_before {m : Module} {h : Handle} {before behind : List Handle}
    (hsplit : m.items = before ++ h :: behind) (hn : m.items.Nodup) : h ∉ before := by
  rw [hsplit, List.perm_middle.nodup_iff, List.nodup_cons, List.mem_append, not_or] at hn
  exact hn.1.1

theorem not_mem_behind {m : Module} {h : Handle} {before behind : List Handle}
    (hsplit : m.items = before ++ h :: behind) (hn : m.items.Nodup) : h ∉ behind := by
  rw [hsplit, List.perm_middle.nodup_iff, List.nodup_cons, List.mem_append, not_or] at hn
  exact hn.1.2

theorem putBefore_items {m : Module} {anchor h : Handle} (ha : anchor ∈ m.items)
    (hne : h ≠ anchor) : ∃ before behind, m.items.erase h = before ++ anchor :: behind ∧
      (m.putBefore anchor h).items = before ++ h :: anchor :: behind := by
  obtain ⟨before, behind, hsplit, hnot⟩ := List.eq_append_cons_of_mem ha
  unfold putBefore insert
  rw [position?_of_split hsplit hnot]
  by_cases hb : h ∈ before
  · -- taking the item out moves the anchor
    obtain ⟨front, back, rfl, hfront⟩ := List.eq_append_cons_of_mem hb
    have hsplit' : m.items = front ++ h :: (back ++ anchor :: behind) := by simp [hsplit]
    have hpos := position?_of_split hsplit' hfront
    have herase : m.items.erase h = (front ++ back) ++ anchor :: behind := by
      rw [hsplit', List.erase_append_right _ hfront, List.erase_cons_head, List.append_assoc]
    have hlen : (front ++ h :: back).length - 1 = (front ++ back).length := by simp
    have hlt : front.length < (front ++ h :: back).length := by simp
    refine ⟨front ++ back, behind, herase, ?_⟩
    simp only [hpos, hlt, if_true, hlen, herase, List.take_left, List.drop_left]
  · have herase : m.items.erase h = before ++ anchor :: behind.erase h := by
      rw [hsplit, List.erase_append_right _ hb, List.erase_cons_tail (by simpa using hne.symm)]
    refine ⟨before, behind.erase h, herase, ?_⟩
    cases hp : m.position? h with
    | none => simp only [herase, List.take_left, List.drop_left]
    | some p =>
      have hlt : ¬p < before.length := by
        intro hlt
        obtain ⟨_, he, _⟩ := List.idxOf?_eq_some_iff.mp hp
        simp only [hsplit, List.getElem_append_left hlt] at he
        exact hb (he ▸ List.getElem_mem hlt)
      simp only [hlt, if_false, herase, List.take_left, List.drop_left]

theorem mem_putBefore {m : Module} {anchor h k : Handle} (ha : anchor ∈ m.items)
    (hne : h ≠ anchor) :
    k ∈ (m.putBefore anchor h).items ↔ k ∈ m.items ∨ k = h := by
  obtain ⟨before, behind, herase, hput⟩ := putBefore_items ha hne
  by_cases hk : k = h
  · simp [hput, hk]
  · rw [hput, ← List.mem_erase_of_ne hk (l := m.items), herase]
    simp [hk]

section
variable {anchor : Handle} {hs : List Handle}

theorem mem_spliceBefore {m : Module} {k : Handle} (ha : anchor ∈ m.items) (hne : anchor ∉ hs) :
    k ∈ (m.spliceBefore anchor hs).items ↔ k ∈ m.items ∨ k ∈ hs := by
  unfold spliceBefore
  induction hs generalizing m with
  | nil => simp
  | cons h hs ih =>
    rw [List.mem_cons, not_or] at hne
    rw [List.foldl_cons, ih ((mem_putBefore ha (Ne.symm hne.1)).mpr (.inl ha)) hne.2,
      mem_putBefore ha (Ne.symm hne.1), List.mem_cons, or_assoc]

end

end CythonDecls.Module
