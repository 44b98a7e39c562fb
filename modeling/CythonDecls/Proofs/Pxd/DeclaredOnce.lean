import CythonDecls.Proofs.Pxd.DeclaredFirst

/-!
# Every declaration is printed once

Functions and variables are printed where they stand among the items. A struct,
a union or an enum is printed by itself or by the first typedef of it, and its
tag is only introduced by itself while it is not printed yet. A typedef gets
its name from a block of its own, or finds that its target has that name.
-/

namespace CythonDecls

def Node.isValue : Node → Bool
  | .function _ => true
  | .object _ => true
  | _ => false

def Graph.isValue (g : Graph) (h : Handle) : Bool := (g.get? h).any Node.isValue

theorem Graph.isValue_of_get? {g : Graph} {h : Handle} {n : Node} (hn : g.get? h = some n) :
    g.isValue h = n.isValue := by
  rw [isValue, hn]
  rfl

namespace Pxd

namespace Block

def value? : Block → Option Handle
  | function subject _ => some subject
  | object subject .. => some subject
  | _ => none

/-- The node that a block declares in full. -/
def declared? : Block → Option Handle
  | container subject .. => some subject
  | enumeration subject .. => some subject
  | function subject _ => some subject
  | object subject .. => some subject
  | _ => none

theorem IsForward.bodiless {g : Graph} {b : Block} (hb : b.IsForward g) :
    b.subject? = none ∧ b.value? = none := by
  obtain ⟨_, _, _, _, _, rfl⟩ := hb
  exact ⟨rfl, rfl⟩

theorem countP_declared (bs : List Block) (k : Handle) :
    bs.countP (·.declared? = some k) =
      (bs.filterMap subject?).count k + (bs.filterMap value?).count k := by
  induction bs with
  | nil => rfl
  | cons b bs ih =>
    rw [List.countP_cons, List.filterMap_cons, List.filterMap_cons, ih]
    cases b <;> simp [declared?, subject?, value?, List.count_cons] <;> omega

theorem countP_forward (bs : List Block) (k : Handle) :
    bs.countP (·.forward? = some k) = (bs.filterMap forward?).count k := by
  induction bs with
  | nil => rfl
  | cons b bs ih =>
    rw [List.countP_cons, List.filterMap_cons, ih]
    cases b <;> simp [forward?, List.count_cons]

end Block

section
variable {g : Graph} {r r₁ r' : Rendering} {h k : Handle}

/-! ## Functions and variables -/

theorem Forwards.valueBlocks {owner : Handle} {hs : List Handle} (hf : Forwards g owner hs r r') :
    r'.blocks.filterMap Block.value? = r.blocks.filterMap Block.value? := by
  obtain ⟨bs, hbs, hall⟩ := hf.blocks
  have hnone : bs.filterMap Block.value? = [] := by
    apply List.filterMap_eq_nil_iff.mpr
    exact fun b hb => (hall b hb).bodiless.2
  rw [hbs, List.filterMap_append, hnone, List.append_nil]

theorem Rendering.valueBlocks_push (r : Rendering) (b : Block) :
    (r.push b).blocks.filterMap Block.value? =
      r.blocks.filterMap Block.value? ++ b.value?.toList := by
  unfold push
  rw [List.filterMap_append]
  cases hb : b.value? <;> simp [hb]

theorem Rendering.valueBlocks_synonym (r : Rendering) (h target : Handle) (declared name : String) :
    (r.synonym h target declared name).blocks.filterMap Block.value? =
      r.blocks.filterMap Block.value? := by
  unfold synonym
  split
  · rfl
  · simp [valueBlocks_push, Block.value?]

theorem Renders.valueBlocks (hr : Renders g r h r') : r'.blocks.filterMap Block.value? =
    r.blocks.filterMap Block.value? ++ [h].filter g.isValue := by
  have hvalue {n : Node} (hn : g.get? h = some n) (hv : n.isValue = true) :
      [h].filter g.isValue = [h] := by
    simp [Graph.isValue_of_get? hn, hv]
  have hnone {n : Node} (hn : g.get? h = some n) (hv : n.isValue = false) :
      [h].filter g.isValue = [] := by
    simp [Graph.isValue_of_get? hn, hv]
  cases hr with
  | silent silent =>
    obtain ⟨n, hn, hs⟩ := silent
    rw [hnone hn, List.append_nil]
    cases n with
    | function f => exact hs.elim
    | object v => exact hs.elim
    | _ => rfl
  | container node _ _ forwards _ =>
    rw [hnone node rfl, Rendering.valueBlocks_push, forwards.valueBlocks]
    rfl
  | enumeration node _ =>
    rw [hnone node rfl, Rendering.valueBlocks_push]
    rfl
  | values node _ _ =>
    rw [hnone node rfl, Rendering.valueBlocks_push]
    rfl
  | ownContainer node _ _ forwards _ =>
    rw [hnone node rfl, Rendering.valueBlocks_synonym, Rendering.valueBlocks_push,
      forwards.valueBlocks]
    rfl
  | ownEnumeration node _ =>
    rw [hnone node rfl, Rendering.valueBlocks_synonym, Rendering.valueBlocks_push]
    rfl
  | named node _ _ _ _ _ forwards _ => rw [hnone node rfl, forwards.valueBlocks, List.append_nil]
  | typedef node _ _ _ _ forwards _ =>
    rw [hnone node rfl, Rendering.valueBlocks_push, forwards.valueBlocks]
    rfl
  | function node _ forwards _ =>
    rw [hvalue node rfl, Rendering.valueBlocks_push, forwards.valueBlocks]
    rfl
  | object node _ forwards _ =>
    rw [hvalue node rfl, Rendering.valueBlocks_push, forwards.valueBlocks]
    rfl

theorem RendersAll.valueBlocks {items : List Handle} {ps : List (Table Handle String × Block)}
    (hr : RendersAll g .start items ps r) :
    r.blocks.filterMap Block.value? = items.filter g.isValue := by
  refine hr.keeps (I := fun done r => r.blocks.filterMap Block.value? = done.filter g.isValue)
    rfl fun done h rest _ r r₁ hdone first => ?_
  rw [first.valueBlocks, hdone, List.filter_append]

/-! ## Tags ahead of their bodies -/

/-- Tags are introduced once, and not behind the block with the body. -/
structure Ahead (g : Graph) (r : Rendering) : Prop where
  once : (r.blocks.filterMap Block.forward?).Nodup
  known : ∀ k ∈ r.blocks.filterMap Block.forward?, r.Known k
  bodies : ∀ k ∈ r.blocks.filterMap Block.subject?, ∀ n, g.get? k = some n →
    n.tag?.isSome = true → r.Known k
  order : r.blocks.Pairwise fun b b' => ∀ k, b.subject? = some k → b'.forward? ≠ some k

theorem ahead_start (g : Graph) : Ahead g .start where
  once := .nil
  known _ hk := absurd hk List.not_mem_nil
  bodies _ hk := absurd hk List.not_mem_nil
  order := .nil

theorem Ahead.define (ha : Ahead g r) (h : Handle) (name : String) : Ahead g (r.define h name) where
  once := ha.once
  known k hk := (ha.known k hk).imp_left (List.mem_cons_of_mem h)
  bodies k hk n hn ht := (ha.bodies k hk n hn ht).imp_left (List.mem_cons_of_mem h)
  order := ha.order

theorem Ahead.forwards (ha : Ahead g r) {owner : Handle} {hs : List Handle}
    (hf : Forwards g owner hs r r₁) : Ahead g r₁ := by
  obtain ⟨bs, hbs, hall⟩ := hf.blocks
  obtain ⟨ks, hks, hn, hfresh⟩ := hf.fresh
  have hsubjects := hf.subjects
  have hnew : bs.filterMap Block.forward? = ks := by
    rw [hbs, List.filterMap_append] at hks
    exact List.append_cancel_left hks
  constructor
  case once =>
    rw [hks, List.nodup_append]
    refine ⟨ha.once, hn, fun k hk l hl he => ?_⟩
    exact (hfresh l hl).1 (he ▸ ha.known k hk)
  case known =>
    intro k hk
    rw [hks] at hk
    rcases List.mem_append.mp hk with hk | hk
    · exact hf.known k (ha.known k hk)
    · exact (hfresh k hk).2.1
  case bodies =>
    intro k hk n hget ht
    rw [hsubjects] at hk
    exact hf.known k (ha.bodies k hk n hget ht)
  case order =>
    rw [hbs, List.pairwise_append]
    refine ⟨ha.order, ?_, ?_⟩
    · apply List.pairwise_of_forall_mem_list
      intro b hb _ _ k hk
      rw [(hall b hb).bodiless.1] at hk
      cases hk
    · intro b hb b' hb' k hk hk'
      -- a tag that was printed with its body is known
      have hmem : k ∈ ks := hnew ▸ List.mem_filterMap.mpr ⟨b', hb', hk'⟩
      obtain ⟨hunknown, _, n, hget, ht⟩ := hfresh k hmem
      exact hunknown (ha.bodies k (List.mem_filterMap.mpr ⟨b, hb, hk⟩) n hget ht)

theorem Ahead.push (ha : Ahead g r) {b : Block} (hb : b.forward? = none)
    (hbody : ∀ k, b.subject? = some k → ∀ n, g.get? k = some n → n.tag?.isSome = true → r.Known k) :
    Ahead g (r.push b) := by
  have hforwards :
      (r.push b).blocks.filterMap Block.forward? = r.blocks.filterMap Block.forward? := by
    simp [Rendering.push, hb]
  constructor
  case once =>
    rw [hforwards]
    exact ha.once
  case known =>
    rw [hforwards]
    exact ha.known
  case bodies =>
    intro k hk n hn ht
    unfold Rendering.push at hk
    rw [List.filterMap_append] at hk
    rcases List.mem_append.mp hk with hk | hk
    · exact ha.bodies k hk n hn ht
    · obtain ⟨b', hb', hk⟩ := List.mem_filterMap.mp hk
      cases List.mem_singleton.mp hb'
      exact hbody k hk n hn ht
  case order =>
    unfold Rendering.push
    rw [List.pairwise_append]
    refine ⟨ha.order, List.pairwise_singleton .., ?_⟩
    intro _ _ b' hb' k _
    cases List.mem_singleton.mp hb'
    rw [hb]
    exact (Option.some_ne_none k).symm

theorem Ahead.push_bodiless (ha : Ahead g r) {b : Block} (hb : b.forward? = none)
    (hs : b.subject? = none) : Ahead g (r.push b) := by
  refine ha.push hb ?_
  intro k hk
  rw [hs] at hk
  cases hk

theorem Ahead.synonym (ha : Ahead g r) (h k : Handle) (declared name : String) :
    Ahead g (r.synonym h k declared name) := by
  unfold Rendering.synonym
  split
  · exact ha
  · exact ha.push_bodiless rfl rfl

theorem Renders.ahead (hr : Renders g r h r') (ha : Ahead g r) : Ahead g r' := by
  cases hr with
  | silent silent => exact ha
  | container node tagged mentions forwards shows =>
    refine ((ha.define _ _).forwards forwards).push rfl ?_
    intro k hk _ _ _
    cases hk
    exact .inl (forwards.defined ▸ List.mem_cons_self)
  | enumeration node tagged =>
    refine (ha.define _ _).push rfl ?_
    intro k hk _ _ _
    cases hk
    exact .inl List.mem_cons_self
  | values node untagged values =>
    refine ha.push rfl ?_
    intro k hk n hn ht
    cases hk
    rw [node] at hn
    cases hn
    rw [Node.tag?, untagged] at ht
    cases ht
  | ownContainer node owns mentions forwards shows =>
    refine (((ha.define _ _).forwards forwards).push rfl ?_).synonym ..
    intro k hk _ _ _
    cases hk
    exact .inl (forwards.defined ▸ List.mem_cons_self)
  | ownEnumeration node owns =>
    refine ((ha.define _ _).push rfl ?_).synonym ..
    intro k hk _ _ _
    cases hk
    exact .inl List.mem_cons_self
  | named node target inner aggregate declared mentions forwards same => exact ha.forwards forwards
  | typedef node target inner declared mentions forwards shows =>
    exact (ha.forwards forwards).push_bodiless rfl rfl
  | function node mentions forwards shows => exact (ha.forwards forwards).push_bodiless rfl rfl
  | object node mentions forwards shows => exact (ha.forwards forwards).push_bodiless rfl rfl

/-! ## Names of typedefs -/

theorem RendersAll.names {ps : List (Table Handle String × Block)}
    (hr : RendersAll g .start g.module.items ps r)
    (hnames : ∀ h ∈ g.module.items, ∀ d, g.get? h = some (.typedef d) → Identifier d.name) :
    ∀ j ∈ g.module.items, ∀ d, g.get? j = some (.typedef d) → d.target.isSome = true →
      ∃ b ∈ r.blocks, b.Names g j := by
  refine (hr.keeps (I := fun done r => Backs g none r ∧ Titled g none r ∧
    ∀ j ∈ done, ∀ d, g.get? j = some (.typedef d) → d.target.isSome = true →
      ∃ b ∈ r.blocks, b.Names g j)
    ⟨backs_start g, titled_start g, fun _ hj => absurd hj List.not_mem_nil⟩ ?_).2.2
  intro done h rest hitems r r₁ ⟨hb, ht, hdone⟩ hrenders
  have hh : h ∈ g.module.items := hitems ▸ List.mem_append_right _ List.mem_cons_self
  refine ⟨hrenders.backs hb, hrenders.titled hb ht, fun j hj d hd hsome => ?_⟩
  rcases List.mem_append.mp hj with hj | hj
  · obtain ⟨b, hmem, hnamed⟩ := hdone j hj d hd hsome
    exact ⟨b, (hrenders.truthful hh).subset hmem, hnamed⟩
  · cases List.mem_singleton.mp hj
    exact hrenders.introduces hb ht hd hsome fun n he =>
      n.not_identifier_anonymousName (he ▸ hnames h hh d hd)

end

/-! ## The whole module list -/

/-- What is to be declared: what is printed with its body, and the functions and variables
among the items. -/
def Due (g : Graph) (k : Handle) : Prop :=
  Printed g g.module.items k ∨ (k ∈ g.module.items ∧ g.isValue k = true)

/-- Every declaration is among the blocks once. -/
structure DeclaredOnce (g : Graph) (ps : List (Table Handle String × Block)) : Prop where
  declared : ∀ k, ps.countP (·.2.declared? = some k) ≤ 1
  due : ∀ k, ps.countP (·.2.declared? = some k) = 1 ↔ Due g k
  forwarded : ∀ k, ps.countP (·.2.forward? = some k) ≤ 1
  ahead : ps.Pairwise fun p p' => ∀ k, p.2.subject? = some k → p'.2.forward? ≠ some k
  typedefs : ∀ j ∈ g.module.items, ∀ d, g.get? j = some (.typedef d) → d.target.isSome = true →
    ∃ p ∈ ps, p.2.IntroducesTypedef ⟨g, p.1⟩ j

theorem Printed.not_isValue {g : Graph} {hs : List Handle} {k : Handle} (hp : Printed g hs k) :
    g.isValue k = false := by
  have haggregate : ∃ n, g.get? k = some n ∧ n.isAggregate = true := by
    rcases hp with ⟨_, n, hn, ha, _⟩ | ⟨_, _, _, _, n, _, _, hn, ha⟩
    · exact ⟨n, hn, ha⟩
    · exact ⟨n, hn, ha⟩
  obtain ⟨n, hn, ha⟩ := haggregate
  rw [Graph.isValue_of_get? hn]
  cases n with
  | container kind c => rfl
  | enumeration e => rfl
  | _ => cases ha

/-- What is due is declared once, and nothing else is. -/
theorem RendersAll.countP_declared {g : Graph} {r : Rendering}
    {ps : List (Table Handle String × Block)} (hr : RendersAll g .start g.module.items ps r)
    (hn : g.module.items.Nodup) (k : Handle) :
    (Due g k ∧ r.blocks.countP (·.declared? = some k) = 1) ∨
      (¬Due g k ∧ r.blocks.countP (·.declared? = some k) = 0) := by
  have hbodies : Bodies g g.module.items r := hr.bodies hn
  have hvalues : r.blocks.filterMap Block.value? = g.module.items.filter g.isValue := hr.valueBlocks
  rw [Block.countP_declared, hvalues, Due, ← hbodies.printed, ← List.mem_filter]
  by_cases hk : k ∈ r.blocks.filterMap Block.subject?
  · -- an aggregate is neither a function nor a variable
    have hvalue : k ∉ g.module.items.filter g.isValue := by
      intro hmem
      have hnot := ((hbodies.printed k).mp hk).not_isValue
      rw [(List.mem_filter.mp hmem).2] at hnot
      cases hnot
    rw [hbodies.once.count, if_pos hk, List.count_eq_zero_of_not_mem hvalue]
    exact .inl ⟨.inl hk, rfl⟩
  · rw [List.count_eq_zero_of_not_mem hk, (hn.filter _).count, Nat.zero_add]
    by_cases hvalue : k ∈ g.module.items.filter g.isValue
    · exact .inl ⟨.inr hvalue, if_pos hvalue⟩
    · exact .inr ⟨fun hdue => hdue.elim hk hvalue, if_neg hvalue⟩

/-- In the blocks of a closed graph whose items are in range and without repeats, and whose
typedefs have identifiers for their names, every declaration is there once. -/
theorem blocks_once {g : Graph} (hg : g.Closed) (hi : ∀ h ∈ g.module.items, h.index < g.size)
    (hn : g.module.items.Nodup)
    (hnames : ∀ h ∈ g.module.items, ∀ d, g.get? h = some (.typedef d) → Identifier d.name) :
    ∃ ps, Prints g ⟨none⟩ ps ∧ DeclaredOnce g ps := by
  obtain ⟨ps, r, hprints, hall⟩ := prints_run_all hg hi
  have hblocks : r.blocks = ps.map (·.2) := hall.blocks
  have hcount (f : Block → Bool) : ps.countP (fun p => f p.2) = r.blocks.countP f := by
    rw [hblocks, List.countP_map]
    rfl
  have hahead : Ahead g r :=
    hall.keeps (I := fun _ r => Ahead g r) (ahead_start g) fun _ _ _ _ _ _ ha hrenders =>
      hrenders.ahead ha
  refine ⟨ps, hprints, ?_⟩
  constructor
  case declared =>
    intro k
    rw [hcount (·.declared? = some k)]
    rcases hall.countP_declared hn k with ⟨_, hone⟩ | ⟨_, hzero⟩ <;> omega
  case due =>
    intro k
    rw [hcount (·.declared? = some k)]
    rcases hall.countP_declared hn k with ⟨hdue, hone⟩ | ⟨hdue, hzero⟩
    · exact iff_of_true hone hdue
    · exact iff_of_false (by omega) hdue
  case forwarded =>
    intro k
    rw [hcount (·.forward? = some k), Block.countP_forward]
    exact List.nodup_iff_count_le_one.mp hahead.once k
  case ahead => exact List.pairwise_map.mp (hblocks ▸ hahead.order)
  case typedefs =>
    intro j hj d hd hsome
    obtain ⟨b, hb, hnamed⟩ := hall.names hnames j hj d hd hsome
    rw [hblocks] at hb
    obtain ⟨p, hp, rfl⟩ := List.mem_map.mp hb
    exact ⟨p, hp, (hprints.truthful p hp).introducesTypedef hnamed⟩

namespace Sample

theorem lists_typedef {h : Handle} (hh : h ∈ lists.module.items) {d : Typedef}
    (hd : lists.get? h = some (.typedef d)) : Identifier d.name := by
  have hall : ∀ h ∈ lists.module.items, ∀ n ∈ lists.get? h, ∀ d ∈ n.typedef?,
      Identifier d.name := by
    decide
  exact hall h hh _ hd d rfl

end Sample

theorem blocks_once_lists :
    Sample.lists.Closed ∧ (∀ h ∈ Sample.lists.module.items, h.index < Sample.lists.size) ∧
      Sample.lists.module.items.Nodup ∧
      (∀ h ∈ Sample.lists.module.items, ∀ d, Sample.lists.get? h = some (.typedef d) →
        Identifier d.name) ∧
      ∃ ps, Prints Sample.lists ⟨none⟩ ps ∧ DeclaredOnce Sample.lists ps :=
  have hnames := fun _ hh _ hd => Sample.lists_typedef hh hd
  ⟨by decide, by decide, by decide, hnames,
    blocks_once (by decide) (by decide) (by decide) hnames⟩

end Pxd

end CythonDecls
