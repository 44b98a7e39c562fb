import CythonDecls.Proofs.Graph.Closed
import CythonDecls.Pxd.Render
import Mathlib.Data.List.Forall2

/-!
# Types are read to their end

In a closed graph, pointers, arrays and functions stand behind what they are
made of, so the aggregates of a type can be collected and every type can be
declared. `Forwards` says what introducing tags does to a rendering.
-/

namespace CythonDecls.Pxd

/-! ## Types come to an end -/

theorem foldlM_ok {α β ε : Type} {f : β → α → Except ε β} {P : β → Prop} {as : List α}
    (hf : ∀ a ∈ as, ∀ b, P b → ∃ b', f b a = .ok b' ∧ P b') :
    ∀ b, P b → ∃ b', as.foldlM f b = .ok b' ∧ P b' := by
  induction as with
  | nil => exact fun b hb => ⟨b, rfl, hb⟩
  | cons a as ih =>
    intro b hb
    obtain ⟨b₁, hb₁, hp₁⟩ := hf a List.mem_cons_self b hb
    obtain ⟨b₂, hb₂, hp₂⟩ := ih (fun a ha => hf a (List.mem_cons_of_mem _ ha)) b₁ hp₁
    refine ⟨b₂, ?_, hp₂⟩
    rw [List.foldlM_cons, hb₁]
    exact hb₂

theorem mapM_ok {α β ε : Type} {f : α → Except ε β} {as : List α}
    (hf : ∀ a ∈ as, ∃ b, f a = .ok b) :
    ∃ bs, as.mapM f = .ok bs ∧ List.Forall₂ (fun a b => f a = .ok b) as bs := by
  induction as with
  | nil => exact ⟨[], rfl, .nil⟩
  | cons a as ih =>
    obtain ⟨b, hb⟩ := hf a List.mem_cons_self
    obtain ⟨bs, hbs, hall⟩ := ih fun a ha => hf a (List.mem_cons_of_mem _ ha)
    refine ⟨b :: bs, ?_, .cons hb hall⟩
    rw [List.mapM_cons, hb, hbs]
    rfl

section
variable {g : Graph}

theorem exists_get {h : Handle} (hh : h.index < g.size) :
    ∃ n, g.get? h = some n ∧ g.get h = .ok n := by
  obtain ⟨n, hn⟩ := Graph.get?_of_lt hh
  exact ⟨n, hn, by simp only [Graph.get, hn]⟩

def Aggregates (g : Graph) (hs : List Handle) : Prop :=
  ∀ h ∈ hs, ∃ n, g.get? h = some n ∧ n.isAggregate = true

theorem collect_ok (hg : g.Closed) (n : Nat) : ∀ found h, Aggregates g found → h.index < n →
    h.index < g.size → ∃ out, collect g n found h = .ok out ∧ Aggregates g out := by
  induction n with
  | zero => exact fun _ _ _ hn => absurd hn (Nat.not_lt_zero _)
  | succ n ih =>
    intro found h hf hn hh
    obtain ⟨m, hm, hget⟩ := exists_get hh
    have hpart (k : Handle) (hk : k ∈ m.parts) : k.index < n ∧ k.index < g.size := by
      have := hg.descending h m hm k hk
      omega
    have hself (ha : m.isAggregate = true) :
        Aggregates g (if found.contains h then found else found ++ [h]) := by
      split
      · exact hf
      · intro k hk
        rcases List.mem_append.mp hk with hk | hk
        · exact hf k hk
        · rw [List.mem_singleton.mp hk]
          exact ⟨m, hm, ha⟩
    unfold collect
    simp only [hget, bind, Except.bind]
    cases m with
    | pointer target =>
      obtain ⟨hlt, hsize⟩ := hpart target List.mem_cons_self
      exact ih found target hf hlt hsize
    | array target dim =>
      obtain ⟨hlt, hsize⟩ := hpart target List.mem_cons_self
      exact ih found target hf hlt hsize
    | function f =>
      obtain ⟨out, hout, ho⟩ :=
        ih found f.returns hf (hpart _ List.mem_cons_self).1 (hpart _ List.mem_cons_self).2
      simp only [hout]
      refine foldlM_ok (fun k hk found hf => ?_) out ho
      have hk' := hpart k (List.mem_cons_of_mem _ hk)
      exact ih found k hf hk'.1 hk'.2
    | container kind c => exact ⟨_, rfl, hself rfl⟩
    | enumeration e => exact ⟨_, rfl, hself rfl⟩
    | _ => exact ⟨found, rfl, hf⟩

theorem mentioned_ok (hg : g.Closed) {types : List Handle} (ht : ∀ h ∈ types, h.index < g.size) :
    ∃ out, mentioned g types = .ok out ∧ Aggregates g out :=
  foldlM_ok (fun h hh found hf => collect_ok hg _ found h hf (Nat.lt_succ_of_lt (ht h hh))
    (ht h hh))
    [] fun _ hk => nomatch hk

theorem exists_typeName (d : Declarator) {h : Handle} (hh : h.index < d.graph.size) :
    ∃ s, d.typeName h = .ok s := by
  obtain ⟨n, _, hget⟩ := exists_get hh
  unfold Declarator.typeName
  split
  · exact ⟨_, rfl⟩
  · exact ⟨_, by rw [hget]; rfl⟩

theorem build_ok (d : Declarator) (hg : d.graph.Closed) (n : Nat) : ∀ h inner, h.index < n →
    h.index < d.graph.size → ∃ s, d.build n h inner = .ok s := by
  induction n with
  | zero => exact fun _ _ hn => absurd hn (Nat.not_lt_zero _)
  | succ n ih =>
    intro h inner hn hh
    obtain ⟨m, hm, hget⟩ := exists_get hh
    have hpart (k : Handle) (hk : k ∈ m.parts) : k.index < n ∧ k.index < d.graph.size := by
      have := hg.descending h m hm k hk
      omega
    unfold Declarator.build
    simp only [hget, bind, Except.bind]
    cases m with
    | pointer target =>
      have ht := hpart target List.mem_cons_self
      obtain ⟨k, _, hk⟩ := exists_get ht.2
      simp only [hk]
      exact ih _ _ ht.1 ht.2
    | array target dim =>
      have ht := hpart target List.mem_cons_self
      exact ih _ _ ht.1 ht.2
    | function f =>
      have hr := hpart f.returns List.mem_cons_self
      have harg (a : Argument) (ha : a ∈ f.arguments) :
          ∃ b, d.build n a.type (a.name.getD "") = .ok b := by
        have hk := hpart a.type (List.mem_cons_of_mem _ (List.mem_map_of_mem ha))
        exact ih _ _ hk.1 hk.2
      obtain ⟨args, hargs, _⟩ := mapM_ok harg
      simp only [hargs]
      exact ih _ _ hr.1 hr.2
    | _ =>
      obtain ⟨s, hs⟩ := exists_typeName d hh
      exact ⟨_, by simp only [hs]; rfl⟩

theorem declare_ok (d : Declarator) (hg : d.graph.Closed) {h : Handle} (hh : h.index < d.graph.size)
    (name : String) : ∃ s, d.declare h name = .ok s :=
  build_ok d hg _ h name (Nat.lt_succ_of_lt hh) hh

end

/-! ## Tags met ahead of their bodies -/

/-- The node whose tag a block introduces ahead of its body. -/
def Block.forward? : Block → Option Handle
  | .forward subject .. => some subject
  | _ => none

/-- A tag is known under a name once it was declared or introduced. -/
def Rendering.Known (r : Rendering) (h : Handle) : Prop := h ∈ r.defined ∨ h ∈ r.forwarded

/-- A block that has the tag of a node, and no more. -/
def Block.IsForward (g : Graph) (b : Block) : Prop :=
  ∃ h n tag, g.get? h = some n ∧ n.tag? = some tag ∧ b = .forward h (keyword n) tag

/-- A block introduces the node of `h` by its tag. -/
def Announced (g : Graph) (bs : List Block) (h : Handle) (tag : String) : Prop :=
  ∃ n, g.get? h = some n ∧ n.tag? = some tag ∧ .forward h (keyword n) tag ∈ bs

/-- From `r` to `r'` the tags of `hs` are introduced, but not that of `owner`. -/
structure Forwards (g : Graph) (owner : Handle) (hs : List Handle) (r r' : Rendering) : Prop where
  blocks : ∃ bs, r'.blocks = r.blocks ++ bs ∧ ∀ b ∈ bs, b.IsForward g
  defined : r'.defined = r.defined
  known : ∀ h, r.Known h → r'.Known h
  met : ∀ h ∈ hs, h ≠ owner → ∀ n, g.get? h = some n → n.tag?.isSome = true → r'.Known h
  named : ∀ h, r'.Known h → r.Known h ∨ (r'.names.find? h).isSome = true
  names : ∀ h name, r'.names.find? h = some name →
    r.names.find? h = some name ∨ Announced g r'.blocks h name
  kept : ∀ h, (r.names.find? h).isSome = true → (r'.names.find? h).isSome = true
  announced : ∀ h ∈ r'.forwarded, h ∈ r.forwarded ∨ ∃ tag, Announced g r'.blocks h tag
  fresh : ∃ ks, r'.blocks.filterMap Block.forward? = r.blocks.filterMap Block.forward? ++ ks ∧
    ks.Nodup ∧ ∀ k ∈ ks, ¬r.Known k ∧ r'.Known k ∧ ∃ n, g.get? k = some n ∧ n.tag?.isSome = true

theorem Forwards.refl (g : Graph) (owner : Handle) (r : Rendering) : Forwards g owner [] r r where
  blocks := ⟨[], (List.append_nil _).symm, fun _ hb => nomatch hb⟩
  defined := rfl
  known _ := id
  met _ hh := nomatch hh
  named _ := .inl
  names _ _ := .inl
  kept _ := id
  announced _ := .inl
  fresh := ⟨[], (List.append_nil _).symm, .nil, fun _ hk => nomatch hk⟩

theorem Announced.append {g : Graph} {bs : List Block} {h : Handle} {tag : String}
    (ha : Announced g bs h tag) (cs : List Block) : Announced g (bs ++ cs) h tag := by
  obtain ⟨n, hn, ht, hb⟩ := ha
  exact ⟨n, hn, ht, List.mem_append_left cs hb⟩

theorem Forwards.trans {g : Graph} {owner : Handle} {hs ks : List Handle} {r₁ r₂ r₃ : Rendering}
    (h₁ : Forwards g owner hs r₁ r₂) (h₂ : Forwards g owner ks r₂ r₃) :
    Forwards g owner (hs ++ ks) r₁ r₃ where
  blocks := by
    obtain ⟨bs, hbs, hf⟩ := h₁.blocks
    obtain ⟨cs, hcs, hf'⟩ := h₂.blocks
    refine ⟨bs ++ cs, by rw [hcs, hbs, List.append_assoc], fun b hb => ?_⟩
    exact (List.mem_append.mp hb).elim (hf b) (hf' b)
  defined := h₂.defined.trans h₁.defined
  known h hh := h₂.known h (h₁.known h hh)
  met h hh hne n hn ht := by
    rcases List.mem_append.mp hh with hh | hh
    · exact h₂.known h (h₁.met h hh hne n hn ht)
    · exact h₂.met h hh hne n hn ht
  named h hh := by
    rcases h₂.named h hh with hh | hh
    · exact (h₁.named h hh).imp_right (h₂.kept h)
    · exact .inr hh
  names h name hn := by
    obtain ⟨cs, hcs, _⟩ := h₂.blocks
    rcases h₂.names h name hn with hn | hn
    · exact (h₁.names h name hn).imp_right fun ha => hcs ▸ ha.append cs
    · exact .inr hn
  kept h hh := h₂.kept h (h₁.kept h hh)
  announced h hh := by
    obtain ⟨cs, hcs, _⟩ := h₂.blocks
    rcases h₂.announced h hh with hh | hh
    · exact (h₁.announced h hh).imp_right fun ⟨tag, ha⟩ => ⟨tag, hcs ▸ ha.append cs⟩
    · exact .inr hh
  fresh := by
    obtain ⟨is, his, hn, hall⟩ := h₁.fresh
    obtain ⟨js, hjs, hn', hall'⟩ := h₂.fresh
    refine ⟨is ++ js, by rw [hjs, his, List.append_assoc], ?_, ?_⟩
    · rw [List.nodup_append]
      refine ⟨hn, hn', fun i hi j hj he => ?_⟩
      exact (hall' j hj).1 (he ▸ (hall i hi).2.1)
    · intro k hk
      rcases List.mem_append.mp hk with hk | hk
      · obtain ⟨hnew, hknown, htag⟩ := hall k hk
        exact ⟨hnew, h₂.known k hknown, htag⟩
      · obtain ⟨hnew, hknown, htag⟩ := hall' k hk
        exact ⟨fun hold => hnew (h₁.known k hold), hknown, htag⟩

theorem Forwards.names_untagged {g : Graph} {owner : Handle} {hs : List Handle} {r r' : Rendering}
    (hf : Forwards g owner hs r r') {k : Handle} {n : Node} (hn : g.get? k = some n)
    (ht : n.tag? = none) : r'.names.find? k = r.names.find? k := by
  cases hfind : r'.names.find? k with
  | some name =>
    rcases hf.names k name hfind with hold | ⟨m, hm, hmt, _⟩
    · exact hold.symm
    · rw [hn] at hm
      cases hm
      rw [ht] at hmt
      cases hmt
  | none =>
    by_contra hne
    have hkept := hf.kept k (Option.isSome_iff_ne_none.mpr (Ne.symm hne))
    rw [hfind] at hkept
    cases hkept

namespace Rendering

section
variable {g : Graph} {owner : Handle}

theorem forwardOne_runs (owner : Handle) {h : Handle} (ha : Aggregates g [h]) (r : Rendering) :
    ∃ r', forwardOne g owner r h = .ok r' ∧ Forwards g owner [h] r r' := by
  obtain ⟨n, hn, _⟩ := ha h (List.mem_singleton_self h)
  have hget : g.get h = .ok n := by simp only [Graph.get, hn]
  unfold forwardOne
  by_cases hc : h = owner ∨ r.defined.contains h = true ∨ r.forwarded.contains h = true
  -- the owner, or what is known, is not announced
  · refine ⟨r, by simp only [hc, if_true]; rfl, { Forwards.refl g owner r with met := ?_ }⟩
    intro k hk hne _ _ _
    rw [List.mem_singleton.mp hk] at hne ⊢
    exact (hc.resolve_left hne).imp List.contains_iff_mem.mp List.contains_iff_mem.mp
  · simp only [hc, if_false, hget, bind, Except.bind]
    cases ht : n.tag? with
    | none =>
      refine ⟨r, rfl, { Forwards.refl g owner r with met := ?_ }⟩
      intro k hk _ m hm hmt
      rw [List.mem_singleton.mp hk, hn] at hm
      cases hm
      rw [ht] at hmt
      cases hmt
    | some tag =>
      have hself (bs : List Block) : Announced g (bs ++ [.forward h (keyword n) tag]) h tag :=
        ⟨n, hn, ht, List.mem_append_right _ (List.mem_singleton_self _)⟩
      refine ⟨_, rfl, ?_⟩
      constructor
      case blocks =>
        refine ⟨[.forward h (keyword n) tag], rfl, fun b hb => ?_⟩
        exact ⟨h, n, tag, hn, ht, List.mem_singleton.mp hb⟩
      case defined => rfl
      case known => exact fun k hk => hk.imp_right (List.mem_cons_of_mem h)
      case met =>
        intro k hk _ _ _ _
        exact .inr (List.mem_singleton.mp hk ▸ List.mem_cons_self)
      case named =>
        rintro k (hk | hk)
        · exact .inl (.inl hk)
        · rcases List.mem_cons.mp hk with rfl | hk
          · exact .inr (by rw [Table.find?_insert, if_pos rfl]; rfl)
          · exact .inl (.inr hk)
      case names =>
        intro k name hk
        rw [Table.find?_insert] at hk
        split at hk
        · rename_i he
          cases hk
          exact .inr (he ▸ hself r.blocks)
        · exact .inl hk
      case kept =>
        intro k hk
        rw [Table.find?_insert]
        split
        · rfl
        · exact hk
      case announced =>
        intro k hk
        rcases List.mem_cons.mp hk with rfl | hk
        · exact .inr ⟨tag, hself r.blocks⟩
        · exact .inl hk
      case fresh =>
        refine ⟨[h], by simp [Block.forward?], List.pairwise_singleton .., ?_⟩
        intro k hk
        cases List.mem_singleton.mp hk
        refine ⟨?_, .inr List.mem_cons_self, n, hn, by rw [ht]; rfl⟩
        rintro (hk | hk)
        · exact hc (.inr (.inl (List.contains_iff_mem.mpr hk)))
        · exact hc (.inr (.inr (List.contains_iff_mem.mpr hk)))

theorem forwardAll_runs (owner : Handle) {hs : List Handle} : ∀ r : Rendering, Aggregates g hs →
    ∃ r', hs.foldlM (forwardOne g owner) r = .ok r' ∧ Forwards g owner hs r r' := by
  induction hs with
  | nil => exact fun r _ => ⟨r, rfl, .refl g owner r⟩
  | cons h hs ih =>
    intro r ha
    obtain ⟨r₁, hr₁, hf₁⟩ := forwardOne_runs owner (h := h)
      (fun k hk => ha k (List.mem_singleton.mp hk ▸ List.mem_cons_self)) r
    obtain ⟨r₂, hr₂, hf₂⟩ := ih r₁ fun k hk => ha k (List.mem_cons_of_mem _ hk)
    refine ⟨r₂, ?_, hf₁.trans hf₂⟩
    rw [List.foldlM_cons, hr₁]
    exact hr₂

theorem forward_runs (hg : g.Closed) (r : Rendering) (types : List Handle)
    (ht : ∀ h ∈ types, h.index < g.size) (owner : Handle) :
    ∃ hs r', mentioned g types = .ok hs ∧ r.forward g types owner = .ok r' ∧
      Forwards g owner hs r r' := by
  obtain ⟨hs, hhs, ha⟩ := mentioned_ok hg ht
  obtain ⟨r', hr', hf⟩ := forwardAll_runs owner r ha
  refine ⟨hs, r', hhs, ?_, hf⟩
  unfold forward
  rw [hhs]
  exact hr'

end

end Rendering

end CythonDecls.Pxd
