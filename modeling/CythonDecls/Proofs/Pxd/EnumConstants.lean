import CythonDecls.Proofs.Pxd.Blocks
import CythonDecls.Pxd.Constants
import Mathlib.Data.List.Perm.Basic

/-!
# Enum constants and enum blocks

The listing of constants and the blocks come from two passes over the items,
and each decides for itself which enums count. One keeps the enums it has met.
The other prints an item by itself, and a target by the first typedef of it
unless it is an item. Where no item is there twice, both come to the same enums
but for those without values.
-/

namespace CythonDecls.Pxd

/-! ## The listing -/

/-- The item `h` is the enum of `k`, or a typedef of it. -/
def DeclaresEnum (g : Graph) (h k : Handle) (e : Enumeration) : Prop :=
  g.get? k = some (.enumeration e) ∧
    (k = h ∨ ∃ t, g.get? h = some (.typedef t) ∧ t.target = some k)

/-- The enums that the items `hs` declare, each once. -/
structure Enums (g : Graph) (hs : List Handle) (es : List (Handle × Enumeration)) : Prop where
  once : (es.map Prod.fst).Nodup
  mem : ∀ k e, (k, e) ∈ es ↔ ∃ h ∈ hs, DeclaresEnum g h k e

section
variable {g : Graph}

theorem declaresEnum_iff {h k : Handle} {n : Node} {e : Enumeration} (hn : g.get? h = some n) :
    DeclaresEnum g h k e ↔ (k = h ∧ n = .enumeration e) ∨
      ∃ t, n = .typedef t ∧ t.target = some k ∧ g.get? k = some (.enumeration e) := by
  unfold DeclaresEnum
  constructor
  · rintro ⟨hk, rfl | ⟨t, ht, htarget⟩⟩
    · exact .inl ⟨rfl, Option.some.inj (hn.symm.trans hk)⟩
    · exact .inr ⟨t, Option.some.inj (hn.symm.trans ht), htarget, hk⟩
  · rintro (⟨rfl, rfl⟩ | ⟨t, rfl, htarget, hk⟩)
    · exact ⟨hn, .inl rfl⟩
    · exact ⟨hk, .inr ⟨t, hn, htarget⟩⟩

theorem enumOf?_run (hg : g.Closed) {h : Handle} (hh : h.index < g.size) :
    ∃ o, enumOf? g h = .ok o ∧ ∀ k e, DeclaresEnum g h k e ↔ o = some (k, e) := by
  obtain ⟨n, hn, hget⟩ := exists_get hh
  simp only [declaresEnum_iff hn, enumOf?, hget, bind, Except.bind]
  cases n with
  | enumeration e => exact ⟨_, rfl, by simp [eq_comm]⟩
  | typedef t =>
    cases ht : t.target with
    | none => exact ⟨none, by simp only [ht]; rfl, by simp [ht]⟩
    | some target =>
      obtain ⟨m, hm, hgetm⟩ := exists_get (hg.inRange h _ hn target (by simp [Node.children, ht]))
      simp only [ht, hgetm]
      have htarget (k : Handle) (e : Enumeration) :
          (target = k ∧ g.get? k = some (.enumeration e)) ↔ target = k ∧ m = .enumeration e := by
        refine and_congr_right fun hk => ?_
        rw [← hk, hm, Option.some.injEq]
      cases m <;> exact ⟨_, rfl, by simp [ht, htarget]⟩
  | _ => exact ⟨none, rfl, by simp⟩

theorem Enums.node {hs : List Handle} {es : List (Handle × Enumeration)} (hes : Enums g hs es)
    {p : Handle × Enumeration} (hp : p ∈ es) : g.get? p.1 = some (.enumeration p.2) := by
  obtain ⟨_, _, hk, _⟩ := (hes.mem p.1 p.2).mp hp
  exact hk

theorem Enums.step {hs : List Handle} {es : List (Handle × Enumeration)} (hes : Enums g hs es)
    {h : Handle} {o : Option (Handle × Enumeration)}
    (ho : ∀ k e, DeclaresEnum g h k e ↔ o = some (k, e)) :
    Enums g (hs ++ [h]) (o.elim es fun p => if es.any (·.1 = p.1) then es else es ++ [p]) := by
  have hmem (k : Handle) (e : Enumeration) :
      (∃ j ∈ hs ++ [h], DeclaresEnum g j k e) ↔ (k, e) ∈ es ∨ o = some (k, e) := by
    simp [hes.mem, ← ho, or_and_right, exists_or]
  cases o with
  | none => exact ⟨hes.once, fun k e => by rw [hmem]; simp⟩
  | some p =>
    simp only [Option.elim_some]
    split
    next hp =>
      obtain ⟨q, hq, hqp⟩ : ∃ q ∈ es, q.1 = p.1 := by simpa using hp
      -- the two are the node of one handle
      have hpe : p ∈ es := by
        have hnode := hes.node hq
        rw [hqp, ((ho p.1 p.2).mpr rfl).1, Option.some.injEq, Node.enumeration.injEq] at hnode
        rwa [← Prod.ext hqp hnode.symm]
      refine ⟨hes.once, fun k e => ?_⟩
      rw [hmem]
      exact ⟨.inl, fun h => h.elim id fun h => Option.some.inj h ▸ hpe⟩
    next hp =>
      constructor
      case once =>
        rw [List.map_append, List.nodup_append]
        refine ⟨hes.once, List.pairwise_singleton .., ?_⟩
        intro k hk j hj
        obtain ⟨q, hq, rfl⟩ := List.mem_map.mp hk
        rw [List.mem_singleton.mp hj]
        exact fun he => hp (List.any_eq_true.mpr ⟨q, hq, by simpa using he⟩)
      case mem =>
        intro k e
        rw [hmem, List.mem_append, List.mem_singleton, Option.some.injEq, eq_comm (a := p)]

theorem enums_foldlM (hg : g.Closed) {hs : List Handle} (hi : ∀ h ∈ hs, h.index < g.size) :
    ∀ done es, Enums g done es → ∃ es', hs.foldlM (fun found item => do
      match ← enumOf? g item with
      | some (h, e) => return if found.any (·.1 = h) then found else found ++ [(h, e)]
      | none => return found) es = .ok es' ∧ Enums g (done ++ hs) es' := by
  induction hs with
  | nil =>
    intro done es hes
    exact ⟨es, rfl, by rwa [List.append_nil]⟩
  | cons h hs ih =>
    intro done es hes
    obtain ⟨o, ho, hdecl⟩ := enumOf?_run hg (hi h List.mem_cons_self)
    have hrest : ∀ k ∈ hs, k.index < g.size := fun k hk => hi k (List.mem_cons_of_mem _ hk)
    obtain ⟨es', hrun, hes'⟩ := ih hrest _ _ (hes.step hdecl)
    refine ⟨es', ?_, by rwa [List.append_assoc] at hes'⟩
    rw [List.foldlM_cons, ho, ← hrun]
    cases o <;> rfl

theorem enums_run (hg : g.Closed) (hi : ∀ h ∈ g.module.items, h.index < g.size) :
    ∃ es, enums g = .ok es ∧ Enums g g.module.items es :=
  enums_foldlM hg hi [] [] ⟨.nil, by simp⟩

end

/-! ## The blocks -/

/-- The lines of a block, those of enumerators with the enum and the name that they stand for. -/
def Block.marked : Block → List (String × Option (Handle × String))
  | .enumeration subject head values =>
    (if values = [] then head else head ++ ":", none) ::
      values.map fun v => (deeper v.name, some (subject, v.name))
  | b => b.lines.map (·, none)

def marked (bs : List Block) : List (String × Option (Handle × String)) :=
  [("", none)].intercalate (bs.map Block.marked)

def enumerators (g : Graph) (k : Handle) : List (Handle × String) :=
  match g.get? k with
  | some (.enumeration e) => e.values.map fun v => (k, v.name)
  | _ => []

section
variable {g : Graph}

theorem enumerators_of_get? {k : Handle} {e : Enumeration} (hk : g.get? k = some (.enumeration e)) :
    enumerators g k = e.values.map fun v => (k, v.name) := by
  rw [enumerators, hk]

theorem Block.marked_lines (b : Block) : b.marked.map Prod.fst = b.lines := by
  cases b with
  | enumeration subject head values =>
    rw [lines_enumeration, marked, headed]
    cases values <;> simp [Function.comp_def]
  | _ => simp [marked, Function.comp_def]

theorem map_intercalate {α β : Type} (f : α → β) (sep : List α) (ls : List (List α)) :
    (sep.intercalate ls).map f = (sep.map f).intercalate (ls.map (·.map f)) := by
  induction ls with
  | nil => rfl
  | cons l ls ih =>
    cases ls with
    | nil => simp
    | cons l' ls => simpa [List.intercalate_cons_cons] using ih

theorem filterMap_intercalate {α β : Type} {f : α → Option β} {sep : List α}
    (hsep : sep.filterMap f = []) (ls : List (List α)) :
    (sep.intercalate ls).filterMap f = ls.flatMap (·.filterMap f) := by
  induction ls with
  | nil => rfl
  | cons l ls ih =>
    cases ls with
    | nil => simp
    | cons l' ls => simpa [List.intercalate_cons_cons, hsep] using ih

theorem marked_lines (bs : List Block) : (marked bs).map Prod.fst = stacked bs := by
  unfold marked stacked
  rw [map_intercalate]
  simp [Function.comp_def, Block.marked_lines]

theorem Block.Says.marked {d : Declarator} {b : Block} (hb : b.Says d) :
    b.marked.filterMap Prod.snd = b.subject?.elim [] (enumerators d.graph) := by
  cases hb with
  | container node =>
    simp [Block.marked, Block.subject?, enumerators, node]
  | enumeration node =>
    simp [Block.marked, Block.subject?, enumerators_of_get? node]
  | _ => simp [Block.marked, Block.subject?]

theorem Prints.marked {filter : Filter} {ps : List (Table Handle String × Block)}
    (hps : Prints g filter ps) : (marked (ps.map (·.2))).filterMap Prod.snd =
      ((ps.map (·.2)).filterMap Block.subject?).flatMap (enumerators g) := by
  have hsaid := hps.truthful
  clear hps
  unfold Pxd.marked
  rw [filterMap_intercalate rfl, List.flatMap_map]
  induction ps with
  | nil => rfl
  | cons p ps ih =>
    have hfirst := (hsaid p List.mem_cons_self).marked
    have hrest := ih fun q hq => hsaid q (List.mem_cons_of_mem _ hq)
    rw [List.map_cons, List.flatMap_cons, List.filterMap_cons, hrest, hfirst]
    cases p.2.subject? <;> rfl

theorem Enums.flatMap {hs : List Handle} {es : List (Handle × Enumeration)} (hes : Enums g hs es) :
    (es.flatMap fun p => p.2.values.map fun v => (p.1, v.name)) =
      (es.map Prod.fst).flatMap (enumerators g) := by
  rw [List.flatMap_map]
  exact List.flatMap_congr fun p hp => (enumerators_of_get? (hes.node hp)).symm

/-- An enum with values is listed where it is printed. -/
theorem Enums.printed {es : List (Handle × Enumeration)} (hes : Enums g g.module.items es)
    {k : Handle} (hk : enumerators g k ≠ []) :
    k ∈ es.map Prod.fst ↔ Printed g g.module.items k := by
  obtain ⟨e, he, hv⟩ : ∃ e, g.get? k = some (.enumeration e) ∧ e.values ≠ [] := by
    unfold enumerators at hk
    split at hk
    next e he => exact ⟨e, he, by simpa using hk⟩
    next => exact absurd rfl hk
  have hshows : ShowsItself g k := ⟨_, he, rfl, .inr ⟨e, rfl, hv⟩⟩
  constructor
  · intro hmem
    obtain ⟨⟨k, e'⟩, hp, rfl⟩ := List.mem_map.mp hmem
    obtain ⟨h, hh, hk', rfl | ⟨t, ht, htarget⟩⟩ := (hes.mem k e').mp hp
    · exact .inl ⟨hh, hshows⟩
    · by_cases hitem : k ∈ g.module.items
      · exact .inl ⟨hitem, hshows⟩
      · exact .inr ⟨hitem, h, hh, t, _, ht, htarget, hk', rfl⟩
  · intro hp
    suffices h : ∃ h ∈ g.module.items, DeclaresEnum g h k e from
      List.mem_map.mpr ⟨(k, e), (hes.mem k e).mpr h, rfl⟩
    rcases hp with ⟨hitem, _⟩ | ⟨_, h, hh, t, _, ht, htarget, _⟩
    · exact ⟨k, hitem, he, .inl rfl⟩
    · exact ⟨h, hh, he, .inr ⟨t, ht, htarget⟩⟩

end

theorem flatMap_perm {α β : Type} {f : α → List β} {as bs : List α} (ha : as.Nodup)
    (hb : bs.Nodup) (h : ∀ a, f a ≠ [] → (a ∈ as ↔ a ∈ bs)) :
    (as.flatMap f).Perm (bs.flatMap f) := by
  have hfilter (l : List α) : l.flatMap f = (l.filter fun a => !(f a).isEmpty).flatMap f := by
    induction l with
    | nil => rfl
    | cons a l ih =>
      rw [List.flatMap_cons, List.filter_cons, ih]
      cases hf : f a <;> simp [hf]
  rw [hfilter as, hfilter bs]
  refine .flatMap_right _ ((List.perm_ext_iff_of_nodup (ha.filter _) (hb.filter _)).mpr ?_)
  intro a
  simp only [List.mem_filter, Bool.not_eq_true', List.isEmpty_eq_false_iff]
  exact and_congr_left fun hf => h a hf

/-! ## Both together -/

/-- The enums `es` of a listing and the marked lines `ls` have the same enumerators. -/
structure SameEnumerators (g : Graph) (es : List (Handle × Enumeration))
    (ls : List (String × Option (Handle × String))) : Prop where
  stored : ∀ p ∈ es, g.get? p.1 = some (.enumeration p.2)
  once : (es.map Prod.fst).Nodup
  same : (es.flatMap fun p => p.2.values.map fun v => (p.1, v.name)).Perm (ls.filterMap Prod.snd)

/-- In a closed graph whose items are in range and without repeats, what is listed are the
enumerators that have a line in the output, enum by enum in the order of their values. -/
theorem constants_printed {g : Graph} (hg : g.Closed)
    (hi : ∀ h ∈ g.module.items, h.index < g.size) (hn : g.module.items.Nodup) :
    ∃ es ps, Prints g ⟨none⟩ ps ∧ SameEnumerators g es (marked (ps.map (·.2))) ∧
      render g ⟨none⟩ = .ok ((marked (ps.map (·.2))).map Prod.fst) ∧
      constants g =
        .ok (es.flatMap fun p => p.2.values.map fun v => s!"{v.name} = {v.value.toInt}") := by
  obtain ⟨es, hrun, hes⟩ := enums_run hg hi
  obtain ⟨ps, hps, honce, hprinted⟩ := blocks_bodies hg hi hn
  refine ⟨es, ps, hps, ?_, by rw [marked_lines]; exact hps.lines, by rw [constants, hrun]; rfl⟩
  constructor
  case stored => exact fun _ => hes.node
  case once => exact hes.once
  case same =>
    rw [hes.flatMap, hps.marked]
    refine flatMap_perm hes.once honce fun k hk => ?_
    rw [hes.printed hk, hprinted]

namespace Sample

def secondName (name : String) (h : Handle) : Node := .typedef ⟨name, some h, none⟩

/-- `enum { RED, GREEN = 5 }` with two typedefs of it, where the first is an item before the
enum `tone`, which is an item itself and the target of a third typedef. -/
def palette : Graph where
  nodes := #[.enumeration ⟨none, [⟨"RED", 0⟩, ⟨"GREEN", 5⟩], none⟩,
    secondName "color_t" ⟨0⟩, secondName "paint_t" ⟨0⟩,
    .enumeration ⟨some "tone", [⟨"DARK", -1⟩], none⟩, secondName "tone_t" ⟨3⟩,
    .enumeration ⟨none, [], none⟩]
  fundamentals := .empty
  module := ⟨[⟨1⟩, ⟨4⟩, ⟨3⟩, ⟨2⟩, ⟨5⟩]⟩

end Sample

theorem constants_printed_palette :
    Sample.palette.Closed ∧ (∀ h ∈ Sample.palette.module.items, h.index < Sample.palette.size) ∧
      Sample.palette.module.items.Nodup ∧ ∃ es ps, Prints Sample.palette ⟨none⟩ ps ∧
        SameEnumerators Sample.palette es (marked (ps.map (·.2))) ∧
        render Sample.palette ⟨none⟩ = .ok ((marked (ps.map (·.2))).map Prod.fst) ∧
        constants Sample.palette =
          .ok (es.flatMap fun p => p.2.values.map fun v => s!"{v.name} = {v.value.toInt}") :=
  ⟨by decide, by decide, by decide, constants_printed (by decide) (by decide) (by decide)⟩

end CythonDecls.Pxd
