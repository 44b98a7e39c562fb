import CythonDecls.Proofs.Pxd.Said

/-!
# One body for each aggregate

No aggregate has two blocks with a body: an item is rendered once, and a typedef
only declares a target that is no item and has no block yet.
-/

namespace CythonDecls.Pxd

/-- The aggregate whose body a block is. -/
def Block.subject? : Block → Option Handle
  | .container subject .. => some subject
  | .enumeration subject .. => some subject
  | _ => none

def ShowsItself (g : Graph) (h : Handle) : Prop :=
  ∃ n, g.get? h = some n ∧ n.isAggregate = true ∧
    (n.tag?.isSome = true ∨ ∃ e, n = .enumeration e ∧ e.values ≠ [])

section
variable {g : Graph} {r r' : Rendering} {h : Handle}

theorem Forwards.subjects {owner : Handle} {hs : List Handle} (hf : Forwards g owner hs r r') :
    r'.blocks.filterMap Block.subject? = r.blocks.filterMap Block.subject? := by
  obtain ⟨bs, hbs, hall⟩ := hf.blocks
  have hnone : bs.filterMap Block.subject? = [] := by
    refine List.filterMap_eq_nil_iff.mpr fun b hb => ?_
    obtain ⟨_, _, _, _, _, rfl⟩ := hall b hb
    rfl
  rw [hbs, List.filterMap_append, hnone, List.append_nil]

theorem Rendering.subjects_push (r : Rendering) {b : Block} (hb : b.subject? = some h) :
    (r.push b).blocks.filterMap Block.subject? = r.blocks.filterMap Block.subject? ++ [h] := by
  simp [push, hb]

theorem Rendering.subjects_push_none (r : Rendering) {b : Block} (hb : b.subject? = none) :
    (r.push b).blocks.filterMap Block.subject? = r.blocks.filterMap Block.subject? := by
  simp [push, hb]

theorem Rendering.subjects_synonym (r : Rendering) (h target : Handle) (declared name : String) :
    (r.synonym h target declared name).blocks.filterMap Block.subject? =
      r.blocks.filterMap Block.subject? := by
  unfold synonym
  split
  · rfl
  · exact r.subjects_push_none rfl

/-- What rendering an item adds: a body, or none. -/
inductive Adds (g : Graph) (r : Rendering) (h : Handle) (r' : Rendering) : Prop where
  | none (subjects : r'.blocks.filterMap Block.subject? = r.blocks.filterMap Block.subject?)
      (defined : r'.defined = r.defined) (silent : ¬ShowsItself g h)
      (declared : ∀ t k n, g.get? h = some (.typedef t) → ¬Owns g r t k n)
  | itself (subjects :
      r'.blocks.filterMap Block.subject? = r.blocks.filterMap Block.subject? ++ [h])
      (defined : r'.defined = r.defined ∨ r'.defined = h :: r.defined) (shows : ShowsItself g h)
  | target {t : Typedef} {k : Handle} {n : Node} (node : g.get? h = some (.typedef t))
      (owns : Owns g r t k n)
      (subjects : r'.blocks.filterMap Block.subject? = r.blocks.filterMap Block.subject? ++ [k])
      (defined : r'.defined = k :: r.defined)

theorem not_showsItself {n : Node} (hn : g.get? h = some n) (ha : n.isAggregate = false) :
    ¬ShowsItself g h := by
  rintro ⟨m, hm, hma, _⟩
  rw [hn] at hm
  cases hm
  rw [ha] at hma
  cases hma

theorem Silent.not_showsItself (hs : Silent g h) : ¬ShowsItself g h := by
  obtain ⟨n, hn, hs⟩ := hs
  rintro ⟨m, hm, ha, hshow⟩
  rw [hn] at hm
  cases hm
  cases n with
  | container kind c =>
    rcases hshow with ht | ⟨_, he, _⟩
    · rw [Node.tag?, show c.tag = none from hs] at ht
      cases ht
    · cases he
  | enumeration e =>
    rcases hshow with ht | ⟨_, he, hv⟩
    · rw [Node.tag?, hs.1] at ht
      cases ht
    · cases he
      exact hv hs.2
  | _ => cases ha

theorem Renders.adds (hr : Renders g r h r') : Adds g r h r' := by
  -- what is no typedef owns no target, nor does a typedef that does not own the one it has
  have hother {n : Node} (hn : g.get? h = some n) (hty : ∀ t, n ≠ .typedef t) (t : Typedef)
      (k : Handle) (m : Node) (ht : g.get? h = some (.typedef t)) : ¬Owns g r t k m := by
    rw [hn] at ht
    cases ht
    exact absurd rfl (hty t)
  have hnot {t : Typedef} {k : Handle} {m : Node} (hn : g.get? h = some (.typedef t))
      (htarget : t.target = some k) (hm : g.get? k = some m) (ho : ¬Owns g r t k m) (t' : Typedef)
      (k' : Handle) (m' : Node) (hn' : g.get? h = some (.typedef t')) : ¬Owns g r t' k' m' := by
    rw [hn] at hn'
    cases hn'
    intro ho'
    have hk := ho'.target
    rw [htarget] at hk
    cases hk
    have hm' := ho'.node
    rw [hm] at hm'
    cases hm'
    exact ho ho'
  cases hr with
  | silent silent =>
    refine .none rfl rfl silent.not_showsItself fun t k n ht ho => ?_
    obtain ⟨m, hm, hs⟩ := silent
    rw [hm] at ht
    cases ht
    have htarget := ho.target
    rw [show t.target = Option.none from hs] at htarget
    cases htarget
  | container node tagged mentions forwards shows =>
    refine .itself ?_ (.inr forwards.defined) ⟨_, node, rfl, .inl (by rw [Node.tag?, tagged]; rfl)⟩
    rw [Rendering.subjects_push _ rfl, forwards.subjects]
    rfl
  | enumeration node tagged =>
    exact .itself (Rendering.subjects_push _ rfl) (.inr rfl)
      ⟨_, node, rfl, .inl (by rw [Node.tag?, tagged]; rfl)⟩
  | values node untagged values =>
    exact .itself (Rendering.subjects_push _ rfl) (.inl rfl)
      ⟨_, node, rfl, .inr ⟨_, rfl, values⟩⟩
  | ownContainer node owns mentions forwards shows =>
    refine .target node owns ?_ ?_
    · rw [Rendering.subjects_synonym, Rendering.subjects_push _ rfl,
        forwards.subjects]
      rfl
    · rw [Rendering.defined_synonym]
      exact forwards.defined
  | ownEnumeration node owns =>
    refine .target node owns ?_ ?_
    · rw [Rendering.subjects_synonym, Rendering.subjects_push _ rfl]
      rfl
    · rw [Rendering.defined_synonym]
      rfl
  | named node target inner aggregate declared mentions forwards same =>
    exact .none forwards.subjects forwards.defined (not_showsItself node rfl)
      (hnot node target inner declared)
  | typedef node target inner declared mentions forwards shows =>
    exact .none ((Rendering.subjects_push_none _ rfl).trans forwards.subjects)
      forwards.defined (not_showsItself node rfl) (hnot node target inner declared)
  | function node mentions forwards shows =>
    exact .none ((Rendering.subjects_push_none _ rfl).trans forwards.subjects)
      forwards.defined (not_showsItself node rfl) (hother node fun t => nofun)
  | object node mentions forwards shows =>
    exact .none ((Rendering.subjects_push_none _ rfl).trans forwards.subjects)
      forwards.defined (not_showsItself node rfl) (hother node fun t => nofun)

end

/-! ## The whole module list -/

section
variable {g : Graph}

/-- A body is printed: that of an item, or of a target that is no item. -/
def Printed (g : Graph) (hs : List Handle) (k : Handle) : Prop :=
  (k ∈ hs ∧ ShowsItself g k) ∨ (k ∉ g.module.items ∧ ∃ h ∈ hs, ∃ t n,
    g.get? h = some (.typedef t) ∧ t.target = some k ∧ g.get? k = some n ∧ n.isAggregate = true)

/-- What holds once the items `hs` are rendered. -/
structure Bodies (g : Graph) (hs : List Handle) (r : Rendering) : Prop where
  once : (r.blocks.filterMap Block.subject?).Nodup
  printed : ∀ k, k ∈ r.blocks.filterMap Block.subject? ↔ Printed g hs k
  defined : ∀ k ∈ r.defined, k ∈ hs ∨ k ∈ r.blocks.filterMap Block.subject?
  targets : ∀ k ∈ r.blocks.filterMap Block.subject?, k ∈ hs ∨ k ∈ r.defined

theorem printed_append {hs : List Handle} {h k : Handle} : Printed g (hs ++ [h]) k ↔
    Printed g hs k ∨ (k = h ∧ ShowsItself g h) ∨ (k ∉ g.module.items ∧ ∃ t n,
      g.get? h = some (.typedef t) ∧ t.target = some k ∧ g.get? k = some n ∧
        n.isAggregate = true) := by
  unfold Printed
  simp only [List.mem_append, List.mem_singleton]
  constructor
  · rintro (⟨hk | rfl, hs⟩ | ⟨hf, l, hl | rfl, hrest⟩)
    · exact .inl (.inl ⟨hk, hs⟩)
    · exact .inr (.inl ⟨rfl, hs⟩)
    · exact .inl (.inr ⟨hf, l, hl, hrest⟩)
    · exact .inr (.inr ⟨hf, hrest⟩)
  · rintro ((⟨hk, hs⟩ | ⟨hf, l, hl, hrest⟩) | ⟨rfl, hs⟩ | ⟨hf, hrest⟩)
    · exact .inl ⟨.inl hk, hs⟩
    · exact .inr ⟨hf, l, .inl hl, hrest⟩
    · exact .inl ⟨.inr rfl, hs⟩
    · exact .inr ⟨hf, h, .inr rfl, hrest⟩

section
variable {hs : List Handle} {r r' : Rendering} {h : Handle} (hb : Bodies g hs r)
  (hitems : ∀ k ∈ hs, k ∈ g.module.items)
include hb

theorem Bodies.nodup_append {k : Handle} (hk : k ∉ r.blocks.filterMap Block.subject?) :
    (r.blocks.filterMap Block.subject? ++ [k]).Nodup := by
  rw [List.nodup_append]
  refine ⟨hb.once, List.pairwise_singleton .., fun l hl j hj he => ?_⟩
  rw [he, List.mem_singleton.mp hj] at hl
  exact hk hl

theorem Bodies.itself (hh : h ∈ g.module.items) (hnew : h ∉ hs)
    (subjects : r'.blocks.filterMap Block.subject? = r.blocks.filterMap Block.subject? ++ [h])
    (defined : r'.defined = r.defined ∨ r'.defined = h :: r.defined) (shows : ShowsItself g h) :
    Bodies g (hs ++ [h]) r' where
  once := by
    rw [subjects]
    refine hb.nodup_append fun hk => ?_
    rcases (hb.printed h).mp hk with ⟨hk, _⟩ | ⟨hk, _⟩
    · exact hnew hk
    · exact hk hh
  printed k := by
    rw [subjects, printed_append, List.mem_append, hb.printed, List.mem_singleton]
    refine or_congr_right ⟨fun hk => .inl ⟨hk, shows⟩, ?_⟩
    rintro (⟨hk, _⟩ | ⟨_, t, _, ht, _⟩)
    · exact hk
    · exact absurd shows (not_showsItself ht rfl)
  defined k hk := by
    rw [subjects]
    have hk : k = h ∨ k ∈ r.defined := by
      rcases defined with hd | hd
      · exact .inr (hd ▸ hk)
      · exact List.mem_cons.mp (hd ▸ hk)
    rcases hk with rfl | hk
    · exact .inl (List.mem_append_right _ (List.mem_singleton_self k))
    · exact (hb.defined k hk).imp (List.mem_append_left _) (List.mem_append_left _)
  targets k hk := by
    have hkept : ∀ l ∈ r.defined, l ∈ r'.defined := by
      rcases defined with hd | hd
      · exact fun l hl => hd ▸ hl
      · exact fun l hl => hd ▸ List.mem_cons_of_mem _ hl
    rw [subjects] at hk
    rcases List.mem_append.mp hk with hk | hk
    · exact (hb.targets k hk).imp (List.mem_append_left _) (hkept k)
    · exact .inl (List.mem_append_right _ hk)

include hitems

theorem Bodies.none
    (subjects : r'.blocks.filterMap Block.subject? = r.blocks.filterMap Block.subject?)
    (defined : r'.defined = r.defined) (silent : ¬ShowsItself g h)
    (declared : ∀ t k n, g.get? h = some (.typedef t) → ¬Owns g r t k n) :
    Bodies g (hs ++ [h]) r' where
  once := by rw [subjects]; exact hb.once
  printed k := by
    rw [subjects, printed_append, hb.printed]
    refine ⟨.inl, fun hk => hk.elim id fun hk => ?_⟩
    rcases hk with ⟨_, hk⟩ | ⟨hfree, t, n, ht, htarget, hn, ha⟩
    · exact absurd hk silent
    · -- the target was declared before
      have hdef : k ∈ r.defined := Decidable.not_not.mp fun hd =>
        declared t k n ht ⟨htarget, hn, ha, hfree, hd⟩
      rcases hb.defined k hdef with hk | hk
      · exact absurd (hitems k hk) hfree
      · exact (hb.printed k).mp hk
  defined := by
    rw [subjects, defined]
    exact fun k hk => (hb.defined k hk).imp_left (List.mem_append_left _)
  targets := by
    rw [subjects, defined]
    exact fun k hk => (hb.targets k hk).imp_left (List.mem_append_left _)

theorem Bodies.target {t : Typedef} {k : Handle} {n : Node} (node : g.get? h = some (.typedef t))
    (owns : Owns g r t k n)
    (subjects : r'.blocks.filterMap Block.subject? = r.blocks.filterMap Block.subject? ++ [k])
    (defined : r'.defined = k :: r.defined) : Bodies g (hs ++ [h]) r' where
  once := by
    rw [subjects]
    refine hb.nodup_append fun hk => ?_
    rcases hb.targets k hk with hk | hk
    · exact owns.free (hitems k hk)
    · exact owns.new hk
  printed l := by
    rw [subjects, printed_append, List.mem_append, hb.printed, List.mem_singleton]
    refine or_congr_right ⟨?_, ?_⟩
    · rintro rfl
      exact .inr ⟨owns.free, t, n, node, owns.target, owns.node, owns.aggregate⟩
    · rintro (⟨_, hl⟩ | ⟨_, t', _, ht, htarget, _⟩)
      · exact absurd hl (not_showsItself node rfl)
      · rw [node] at ht
        cases ht
        have htarget' := owns.target
        rw [htarget] at htarget'
        cases htarget'
        rfl
  defined l hl := by
    rw [subjects]
    rw [defined] at hl
    rcases List.mem_cons.mp hl with rfl | hl
    · exact .inr (List.mem_append_right _ (List.mem_singleton_self l))
    · exact (hb.defined l hl).imp (List.mem_append_left _) (List.mem_append_left _)
  targets l hl := by
    rw [subjects] at hl
    rw [defined]
    rcases List.mem_append.mp hl with hl | hl
    · exact (hb.targets l hl).imp (List.mem_append_left _) (List.mem_cons_of_mem _)
    · exact .inr (List.mem_singleton.mp hl ▸ List.mem_cons_self)

theorem Bodies.step (hr : Renders g r h r') (hh : h ∈ g.module.items) (hnew : h ∉ hs) :
    Bodies g (hs ++ [h]) r' := by
  cases hr.adds with
  | none subjects defined silent declared => exact hb.none hitems subjects defined silent declared
  | itself subjects defined shows => exact hb.itself hh hnew subjects defined shows
  | target node owns subjects defined => exact hb.target hitems node owns subjects defined

end

theorem bodies_start (g : Graph) : Bodies g [] .start := by
  constructor
  case once => exact .nil
  case printed => simp [Printed, Rendering.start]
  case defined => exact fun _ hk => nomatch hk
  case targets => exact fun _ hk => nomatch hk

theorem RendersAll.bodies {ps : List (Table Handle String × Block)} {r : Rendering}
    (hr : RendersAll g .start g.module.items ps r) (hn : g.module.items.Nodup) :
    Bodies g g.module.items r := by
  refine hr.keeps (bodies_start g) fun done h rest hitems r r₁ hb hrenders => ?_
  have hdone : ∀ k ∈ done, k ∈ g.module.items := fun k hk => hitems ▸ List.mem_append_left _ hk
  have hh : h ∈ g.module.items := hitems ▸ List.mem_append_right _ List.mem_cons_self
  have hnew : h ∉ done := by
    rw [hitems, List.nodup_append] at hn
    exact fun hmem => hn.2.2 h hmem h List.mem_cons_self rfl
  exact hb.step hdone hrenders hh hnew

/-- Every aggregate that is to be printed has one block with its body, and no other has one. -/
theorem blocks_bodies (hg : g.Closed) (hi : ∀ h ∈ g.module.items, h.index < g.size)
    (hn : g.module.items.Nodup) : ∃ ps, Prints g ⟨none⟩ ps ∧
      ((ps.map (·.2)).filterMap Block.subject?).Nodup ∧
      ∀ k, k ∈ (ps.map (·.2)).filterMap Block.subject? ↔ Printed g g.module.items k := by
  obtain ⟨ps, r, hps, hall⟩ := prints_run_all hg hi
  have hbodies : Bodies g g.module.items r := hall.bodies hn
  have hblocks : r.blocks = ps.map (·.2) := hall.blocks
  exact ⟨ps, hps, hblocks ▸ hbodies.once, hblocks ▸ hbodies.printed⟩

theorem exists_of_subject {α : Type} {f : α → Option Handle} {as : List α} {k : Handle}
    (hn : (as.filterMap f).Nodup) (hk : k ∈ as.filterMap f) :
    ∃ a ∈ as, f a = some k ∧ as.filter (f · = some k) = [a] := by
  induction as with
  | nil => cases hk
  | cons a as ih =>
    rw [List.filterMap_cons] at hn hk
    cases ha : f a with
    | none =>
      rw [ha] at hn hk
      obtain ⟨c, hc, hck, hfilter⟩ := ih hn hk
      refine ⟨c, List.mem_cons_of_mem _ hc, hck, ?_⟩
      rw [List.filter_cons, if_neg (by simp [ha]), hfilter]
    | some j =>
      rw [ha] at hn hk
      by_cases hj : j = k
      · subst hj
        have hrest : as.filter (f · = some j) = [] := by
          refine List.filter_eq_nil_iff.mpr fun c hc hcj => ?_
          exact (List.nodup_cons.mp hn).1 (List.mem_filterMap.mpr ⟨c, hc, by simpa using hcj⟩)
        refine ⟨a, List.mem_cons_self, ha, ?_⟩
        rw [List.filter_cons, if_pos (by simp [ha]), hrest]
      · have hk' := (List.mem_cons.mp hk).resolve_left (Ne.symm hj)
        obtain ⟨c, hc, hck, hfilter⟩ := ih (List.nodup_cons.mp hn).2 hk'
        refine ⟨c, List.mem_cons_of_mem _ hc, hck, ?_⟩
        rw [List.filter_cons, if_neg (by simp [ha, hj]), hfilter]

end

end CythonDecls.Pxd
