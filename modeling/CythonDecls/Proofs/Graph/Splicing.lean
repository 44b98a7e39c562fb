import CythonDecls.Proofs.Graph.Items
import Mathlib.Data.List.Dedup
import Mathlib.Logic.Relation

/-!
# Where items are put

In a list without repeats an item that is put at a place leaves its old one,
and all others keep their order. So what is spliced before an anchor is gone
from both sides of it and stands next to it, each item where it was named last.
-/

namespace CythonDecls.Module

variable {m m' : Module} {anchor h : Handle} {hs before behind : List Handle}

theorem filter_ne_of_notMem {l : List Handle} (hl : h ∉ l) : l.filter (· ≠ h) = l := by
  rw [List.filter_eq_self]
  intro k hk
  have hne : k ≠ h := ne_of_mem_of_not_mem hk hl
  simpa using hne

theorem take_erase {front back : List Handle} (hn : (front ++ h :: back).Nodup) (index : Nat) :
    (front ++ back).take (if front.length < index then index - 1 else index) =
      ((front ++ h :: back).take index).filter (· ≠ h) := by
  rw [List.nodup_middle, List.nodup_cons, List.mem_append, not_or] at hn
  by_cases hlt : front.length < index
  · obtain ⟨k, rfl⟩ := Nat.exists_eq_add_of_lt hlt
    have hback : h ∉ back.take k := fun hmem => hn.1.2 (List.mem_of_mem_take hmem)
    have htake : (front ++ h :: back).take (front.length + k + 1) = front ++ h :: back.take k := by
      rw [Nat.add_assoc, List.take_length_add_append, List.take_succ_cons]
    rw [if_pos hlt, htake, List.filter_append, filter_ne_of_notMem hn.1.1,
      List.filter_cons_of_neg (by simp), filter_ne_of_notMem hback]
    exact List.take_length_add_append k
  · have hle : index ≤ front.length := Nat.le_of_not_lt hlt
    have hfront : h ∉ front.take index := fun hmem => hn.1.1 (List.mem_of_mem_take hmem)
    rw [if_neg hlt, List.take_append_of_le_length hle, List.take_append_of_le_length hle,
      filter_ne_of_notMem hfront]

/-- The item comes behind what was in the first `index` places, or at the end if there
are not so many. -/
theorem insert_items (hn : m.items.Nodup) (index : Nat) (h : Handle) :
    (m.insert index h).items =
      (m.items.take index).filter (· ≠ h) ++ h :: (m.items.drop index).filter (· ≠ h) := by
  have hothers : m.items.erase h =
      (m.items.take index).filter (· ≠ h) ++ (m.items.drop index).filter (· ≠ h) := by
    rw [← List.filter_append, List.take_append_drop, hn.erase_eq_filter]
    refine List.filter_congr fun k _ => ?_
    rw [Bool.eq_iff_iff]
    simp
  -- what the first places lack is in the last ones
  have hinsert {place : Nat} (htake : (m.items.erase h).take place =
      (m.items.take index).filter (· ≠ h)) :
      (m.items.erase h).take place ++ h :: (m.items.erase h).drop place =
        (m.items.take index).filter (· ≠ h) ++ h :: (m.items.drop index).filter (· ≠ h) := by
    have hboth := (List.take_append_drop place (m.items.erase h)).trans hothers
    rw [htake] at hboth ⊢
    rw [List.append_cancel_left hboth]
  by_cases hm : h ∈ m.items
  · obtain ⟨front, back, hsplit, hfront⟩ := List.eq_append_cons_of_mem hm
    have herase : m.items.erase h = front ++ back := by
      rw [hsplit, List.erase_append_right _ hfront, List.erase_cons_head]
    have htake := take_erase (hsplit ▸ hn) index
    rw [← herase, ← hsplit] at htake
    simp only [insert, position?_of_split hsplit hfront]
    exact hinsert htake
  · have hnone : m.position? h = none := by simpa [position?] using hm
    have hfront : h ∉ m.items.take index := fun hmem => hm (List.mem_of_mem_take hmem)
    simp only [insert, hnone]
    apply hinsert
    rw [List.erase_of_not_mem hm, filter_ne_of_notMem hfront]

theorem filter_notMem_cons (l : List Handle) :
    l.filter (· ∉ h :: hs) = (l.filter (· ≠ h)).filter (· ∉ hs) := by
  rw [List.filter_filter]
  apply List.filter_congr
  intro k _
  by_cases hk : k = h <;> simp [hk]

theorem putBefore_items_of_split (hn : m.items.Nodup)
    (hsplit : m.items = before ++ anchor :: behind) :
    (m.putBefore anchor h).items =
      before.filter (· ≠ h) ++ h :: (anchor :: behind).filter (· ≠ h) := by
  unfold putBefore
  simp only [position?_of_split hsplit (not_mem_before hsplit hn), insert_items hn, hsplit,
    List.take_left, List.drop_left]

/-- What is spliced stands before the anchor in its order, each item where it was named
last, and all else keeps its side of the anchor. -/
theorem spliceBefore_items : ∀ {m : Module} {before behind : List Handle}, m.items.Nodup →
    m.items = before ++ anchor :: behind → (m.spliceBefore anchor hs).items =
      before.filter (· ∉ hs) ++ (hs.filter (· ≠ anchor)).dedup ++
        anchor :: behind.filter (· ∉ hs) := by
  unfold spliceBefore
  induction hs with
  | nil => simp
  | cons h hs ih =>
    intro m before behind hn hsplit
    have hput := putBefore_items_of_split (h := h) hn hsplit
    have hn' : (m.putBefore anchor h).items.Nodup := nodup_putBefore hn
    rw [List.foldl_cons, filter_notMem_cons before, filter_notMem_cons behind]
    by_cases ha : h = anchor
    · -- the anchor is put before itself and stays
      subst ha
      have hbefore := filter_ne_of_notMem (not_mem_before hsplit hn)
      have hbehind := filter_ne_of_notMem (not_mem_behind hsplit hn)
      rw [hbefore, hbehind, List.filter_cons_of_neg (by simp)]
      apply ih hn'
      rw [hput, hbefore, List.filter_cons_of_neg (by simp), hbehind]
    · have hput' : (m.putBefore anchor h).items =
          (before.filter (· ≠ h) ++ [h]) ++ anchor :: behind.filter (· ≠ h) := by
        rw [hput, List.filter_cons_of_pos (by simpa using Ne.symm ha), List.append_assoc]
        rfl
      have hother : (h :: hs).filter (· ≠ anchor) = h :: hs.filter (· ≠ anchor) :=
        List.filter_cons_of_pos (by simpa using ha)
      rw [ih hn' hput', List.filter_append, hother]
      by_cases hmem : h ∈ hs
      · -- a later turn moves it once more
        have hlast : h ∈ hs.filter (· ≠ anchor) := List.mem_filter.mpr ⟨hmem, by simpa using ha⟩
        rw [List.dedup_cons_of_mem hlast]
        simp [hmem]
      · have honce : h ∉ hs.filter (· ≠ anchor) := fun hk => hmem (List.mem_filter.mp hk).1
        rw [List.dedup_cons_of_notMem honce]
        simp [hmem]

/-! ## Runs of edits -/

inductive Step : Module → Module → Prop where
  | push (m : Module) (h : Handle) : Step m (m.push h)
  | insert (m : Module) (index : Nat) (h : Handle) : Step m (m.insert index h)
  | spliceBefore (m : Module) (anchor : Handle) (hs : List Handle) :
    Step m (m.spliceBefore anchor hs)
  | remove (m : Module) (h : Handle) : Step m (m.remove h)

theorem Step.nodup (hstep : Step m m') (hn : m.items.Nodup) : m'.items.Nodup := by
  cases hstep with
  | push h => exact nodup_push hn
  | insert index h => exact nodup_insert hn
  | spliceBefore anchor hs => exact nodup_spliceBefore hn
  | remove h => exact nodup_remove hn

theorem nodup_of_steps (hsteps : Relation.ReflTransGen Step m m') (hn : m.items.Nodup) :
    m'.items.Nodup := by
  induction hsteps with
  | refl => exact hn
  | tail _ hstep ih => exact hstep.nodup ih

/-- An item that is edited in is found at the place it was given, all others stand around
it as before, and no item is ever listed twice. -/
theorem edits_place :
    (∀ (m : Module) (index : Nat) (h : Handle), m.items.Nodup →
      (m.insert index h).items =
        (m.items.take index).filter (· ≠ h) ++ h :: (m.items.drop index).filter (· ≠ h)) ∧
    (∀ (m : Module) (anchor : Handle) (hs before behind : List Handle), m.items.Nodup →
      m.items = before ++ anchor :: behind → (m.spliceBefore anchor hs).items =
        before.filter (· ∉ hs) ++ (hs.filter (· ≠ anchor)).dedup ++
          anchor :: behind.filter (· ∉ hs)) ∧
    ∀ m, Relation.ReflTransGen Step empty m → m.items.Nodup :=
  ⟨fun _ index h hn => insert_items hn index h,
    fun _ _ _ _ _ hn hsplit => spliceBefore_items hn hsplit,
    fun _ hsteps => nodup_of_steps hsteps List.nodup_nil⟩

/-- An item is put behind its old place. Then items from both sides of an anchor are spliced
before it, a new one, one that is named twice, and the anchor itself. -/
theorem edits_place_between :
    let m : Module := ⟨[⟨0⟩, ⟨1⟩, ⟨2⟩, ⟨3⟩, ⟨4⟩]⟩
    m.items.Nodup ∧ (m.insert 3 ⟨0⟩).items = [⟨1⟩, ⟨2⟩, ⟨0⟩, ⟨3⟩, ⟨4⟩] ∧
      (m.spliceBefore ⟨2⟩ [⟨4⟩, ⟨9⟩, ⟨2⟩, ⟨0⟩, ⟨4⟩]).items = [⟨1⟩, ⟨9⟩, ⟨0⟩, ⟨4⟩, ⟨2⟩, ⟨3⟩] := by
  intro m
  obtain ⟨hinsert, hsplice, hrun⟩ := edits_place
  have hsteps : Relation.ReflTransGen Step empty m :=
    (((((Relation.ReflTransGen.refl.tail (.push _ ⟨0⟩)).tail (.push _ ⟨1⟩)).tail
      (.push _ ⟨2⟩)).tail (.push _ ⟨3⟩)).tail (.push _ ⟨4⟩))
  have hn : m.items.Nodup := hrun m hsteps
  exact ⟨hn, hinsert m 3 ⟨0⟩ hn, hsplice m ⟨2⟩ _ [⟨0⟩, ⟨1⟩] [⟨3⟩, ⟨4⟩] hn rfl⟩

end CythonDecls.Module
