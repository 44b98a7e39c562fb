import CythonDecls.Proofs.Graph.Order
import CythonDecls.Proofs.Unnest.Unnested

/-!
# Typedefs stay ahead of their uses

Where each item has the typedefs in front that are printed with it, unnesting
keeps it so. What is extracted comes right before the item that it was inside
of, and so behind all that this item had in front. The new typedef of a field
is extracted ahead of the body that has the field.
-/

namespace CythonDecls

namespace Graph

def Part (g : Graph) (h k : Handle) : Prop := ∃ n, g.get? h = some n ∧ k ∈ n.parts

def Spells (g : Graph) (h j : Handle) : Prop :=
  Relation.ReflTransGen g.Part h j ∧ ∃ d, g.get? j = some (.typedef d)

/-- The body of `k` is printed where the item stands: the one that it declares,
unless that is an item of its own, or one that is extracted from it. -/
def PrintsBody (g : Graph) (item k : Handle) : Prop :=
  ∃ c, g.Root item c ∧
    ((k = c ∧ (c = item ∨ c ∉ g.module.items)) ∨ Relation.TransGen g.Holds c k)

/-- The types that are printed where the item stands. -/
inductive Prints (g : Graph) (item : Handle) : Handle → Prop where
  | field {k : Handle} {kind : ContainerKind} {body : Container} {f : Field}
      (printed : g.PrintsBody item k) (node : g.get? k = some (.container kind body))
      (field : f ∈ body.fields) : Prints g item f.type
  | target {d : Typedef} {k : Handle} (node : g.get? item = some (.typedef d))
      (target : d.target = some k) : Prints g item k
  | function {f : Function} (node : g.get? item = some (.function f)) : Prints g item item
  | object {v : Variable} (node : g.get? item = some (.object v)) : Prints g item v.type

def TypedefsFirst (g : Graph) : Prop :=
  ∀ item ∈ g.module.items, ∀ type, g.Prints item type → ∀ j, g.Spells type j →
    g.module.Precedes j item

section
variable {g g' : Graph} {ex : List Handle} {h j k : Handle}

theorem Spells.eq_of_no_parts {n : Node} (hs : g.Spells h j) (hn : g.get? h = some n)
    (hp : n.parts = []) : j = h := by
  rcases Relation.ReflTransGen.cases_head hs.1 with rfl | ⟨k, ⟨m, hm, hk⟩, _⟩
  · rfl
  · rw [hn] at hm
    cases hm
    rw [hp] at hk
    cases hk

theorem not_spells_of_aggregate {n : Node} (hn : g.get? h = some n) (ha : n.isAggregate = true) :
    ¬g.Spells h j := by
  intro hs
  obtain ⟨d, hd⟩ := hs.2
  have hp : n.parts = [] := by
    cases n with
    | container kind c => rfl
    | enumeration e => rfl
    | _ => cases ha
  rw [hs.eq_of_no_parts hn hp, hn] at hd
  cases hd
  cases ha

theorem not_spells_of_hasBody (hb : g.HasBody h) : ¬g.Spells h j := by
  obtain ⟨n, hn, hb⟩ := hb
  rw [Node.hasBody, Bool.and_eq_true] at hb
  exact not_spells_of_aggregate hn hb.1

theorem Unnests.parts (hu : g.Unnests g' ex) (hg : g.Closed) (hh : h.index < g.size)
    (hp : Relation.ReflTransGen g'.Part h j) :
    Relation.ReflTransGen g.Part h j ∧ j.index < g.size := by
  induction hp with
  | refl => exact ⟨.refl, hh⟩
  | @tail k l _ hpart ih =>
    obtain ⟨n', hn', hl⟩ := hpart
    obtain ⟨n, hn⟩ := get?_of_lt ih.2
    obtain ⟨m, hm, hnn⟩ := hu.nodes k n hn
    rw [hn'] at hm
    cases hm
    cases hnn with
    | same => exact ⟨ih.1.tail ⟨n', hn, hl⟩, Nat.lt_trans (hg.descending k n' hn l hl) ih.2⟩
    | container => cases hl
    | enumeration => cases hl

theorem Unnests.spells (hu : g.Unnests g' ex) (hg : g.Closed) (hh : h.index < g.size)
    (hs : g'.Spells h j) : g.Spells h j ∧ j.index < g.size := by
  obtain ⟨hpath, d, hd⟩ := hs
  obtain ⟨hold, hlt⟩ := hu.parts hg hh hpath
  exact ⟨⟨hold, d, hu.old_typedef hlt hd⟩, hlt⟩

theorem Unnests.field (hu : g.Unnests g' ex) (hk : k.index < g.size) {kind : ContainerKind}
    {body' : Container} (hn' : g'.get? k = some (.container kind body')) {f' : Field}
    (hf' : f' ∈ body'.fields) : ∃ body, g.get? k = some (.container kind body) ∧
      ∃ f ∈ body.fields, f.Unnests g g' ex f' := by
  obtain ⟨n, hn⟩ := get?_of_lt hk
  obtain ⟨m, hm, hnn⟩ := hu.nodes k n hn
  rw [hn'] at hm
  cases hm
  cases hnn with
  | same => exact ⟨body', hn, f', hf', .same f'⟩
  | @container _ body _ _ _ fields =>
    obtain ⟨f, hf, hff⟩ := mem_right_of_forall₂ fields.flip f' hf'
    exact ⟨body, hn, f, hf, hff⟩

theorem Root.of_typedef {d : Typedef} (hr : g.Root h k) (hd : g.get? h = some (.typedef d)) :
    d.target = some k := by
  rcases hr with ⟨rfl, _, _, hn, _⟩ | ⟨d', _, _, hd', ht, _⟩
  · rw [hd] at hn
    cases hn
  · rw [hd] at hd'
    cases hd'
    exact ht

theorem Root.of_hasBody (hr : g.Root h k) (hb : g.HasBody h) : k = h := by
  rcases hr with ⟨rfl, _⟩ | ⟨d, _, _, hd, _⟩
  · rfl
  · cases hb.of_get? hd

theorem Root.lt_size (hr : g.Root h k) : k.index < g.size := by
  rcases hr with ⟨rfl, _, _, hn, _⟩ | ⟨_, _, _, _, _, hn⟩
  · exact lt_of_get? hn
  · exact lt_of_get? hn

theorem Unnests.root_of_kept (hu : g.Unnests g' ex) (hg : g.InRange)
    (ht : Unnesting.KeepsTags g g' ex) (hnot : h ∉ ex) (hr : g'.Root h k) : g.Root h k := by
  have hlt (n : Node) (hn : g'.get? h = some n) : h.index < g.size :=
    Nat.lt_of_not_le fun hle => hnot (hu.fresh h n hn hle).1
  rcases hr with ⟨rfl, kind, body, hn, htag⟩ | ⟨d, kind, body, hd, htarget, hn⟩
  · exact Unnesting.root_of_container hu ht hnot hn htag
  · exact Unnesting.root_of_typedef hg hu (hlt _ hd) hd htarget hn

end

end Graph

namespace Unnesting

variable {u v w : Unnesting} {g : Graph} {stats : UnnestStats}

/-! ## The order of what is extracted -/

/-- In `ex` the handle `t` comes ahead of the last place of `k`. -/
def Ahead (ex : List Handle) (t k : Handle) : Prop :=
  ∃ hs ks, ex = hs ++ ks ∧ t ∈ hs ∧ t ∉ ks ∧ k ∈ ks

/-- New typedefs come ahead of the bodies that have fields of them. -/
def FieldsAhead (size : Nat) (u : Unnesting) : Prop :=
  ∀ k ∈ u.extracted, ∀ kind body, u.graph.get? k = some (.container kind body) →
    ∀ f ∈ body.fields, size ≤ f.type.index → Ahead u.extracted f.type k

theorem fields_named {h : Handle} (hb : u.graph.HasBody h) (name : String) {k : Handle}
    {kind : ContainerKind} {body : Container}
    (hn : (u.named h name).graph.get? k = some (.container kind body)) :
    ∃ old, u.graph.get? k = some (.container kind old) ∧ ∀ f ∈ body.fields, f ∈ old.fields := by
  obtain ⟨n, hh, hnb⟩ := hb
  rw [named_graph hh] at hn
  by_cases hk : k = h
  · subst hk
    rw [Graph.get?_set_self hh] at hn
    cases n with
    | container kind' old =>
      cases hn
      exact ⟨old, hh, fun f hf => hf⟩
    | enumeration e => cases hn
    | _ => cases hnb
  · rw [Graph.get?_set_ne _ hk] at hn
    exact ⟨body, hn, fun f hf => hf⟩

theorem Steps.fieldsAhead (hs : Steps ⟨g, [], stats⟩ v) (hg : g.InRange) :
    FieldsAhead g.size v := by
  induction hs with
  | refl => exact fun _ hk => nomatch hk
  | @tail v w hsteps hstep ih =>
    have hu : g.Unnests v.graph v.extracted := Steps.unnests hsteps
    have hex : ∀ k ∈ v.extracted, Extracted g.size v.graph k :=
      Steps.extracted hsteps (Nat.le_refl _) fun _ hk => nomatch hk
    cases hstep with
    | name outer inner inline body =>
      intro k hk kind c hn f hf hnew
      -- naming a node changes its tag alone, so the fields are those from before
      obtain ⟨old, hold, hfields⟩ := fields_named body _ hn
      exact ih k hk kind old hold f (hfields f hf) hnew
    | @extract c i f outer inner field inline body flat tagged =>
      have hw := extract_unnests field inline body outer inner
      have hnext := extract_next field f.type (mangle outer inner)
      intro k hk kind b hn f' hf' hnew
      have hkn : k ≠ v.graph.next := fun he => by
        rw [he, hnext] at hn
        cases hn
      have hmem : k ∈ v.extracted ∨ k = f.type := by
        rcases List.mem_append.mp hk with hk | hk
        · exact .inl hk
        · exact .inr ((List.mem_cons.mp hk).resolve_right fun hk => hkn (List.mem_singleton.mp hk))
      -- what is extracted is flat, so it is not the body that just lost a field
      have hflat : v.graph.HasBody k ∧ v.graph.Flat k := by
        rcases hmem with hk | rfl
        · rcases hex k hk with ⟨hle, hlt⟩ | ⟨hb, hf, _⟩
          · obtain ⟨m, hm⟩ := Graph.get?_of_lt hlt
            obtain ⟨_, d, _, rfl, _⟩ := hu.fresh k m hm hle
            rw [hw.typedef hm] at hn
            cases hn
          · exact ⟨hb, hf⟩
        · exact ⟨body, flat⟩
      have hkc : k ≠ c := fun he => hflat.2 f.type (he ▸ inline_of_field field inline) body
      obtain ⟨⟨m, hm, _⟩, _⟩ := hflat
      rw [extract_get?_ne field _ _ hkc (Graph.lt_of_get? hm)] at hn
      have hlt := hu.inRange hg k _ hn f'.type (List.mem_map_of_mem hf')
      obtain ⟨m', hm'⟩ := Graph.get?_of_lt hlt
      obtain ⟨hplaced, d, _, rfl, _⟩ := hu.fresh f'.type m' hm' hnew
      -- the typedef of the field is older than this step, which adds the next one
      have hnot : f'.type ∉ [f.type, v.graph.next] := by
        intro hin
        rcases List.mem_cons.mp hin with he | hin
        · obtain ⟨l, hl, hb⟩ := body
          rw [← he, hm'] at hl
          cases hl
          cases hb
        · rw [List.mem_singleton.mp hin] at hlt
          exact Nat.lt_irrefl _ hlt
      rcases hmem with hk | rfl
      · obtain ⟨hs, ks, he, hhs, hks, hkk⟩ := ih k hk kind b hn f' hf' hnew
        refine ⟨hs, ks ++ [f.type, v.graph.next], ?_, hhs, ?_, List.mem_append_left _ hkk⟩
        · rw [← List.append_assoc, ← he]
          rfl
        · exact fun hin => (List.mem_append.mp hin).elim hks hnot
      · exact ⟨v.extracted, [f.type, v.graph.next], rfl, hplaced, hnot, List.mem_cons_self⟩

section
variable {k j x : Handle} (steps : Steps ⟨g, [], stats⟩ v)
include steps

theorem Steps.extracted_all : ∀ k ∈ v.extracted, Extracted g.size v.graph k :=
  steps.extracted (Nat.le_refl _) fun _ hk => nomatch hk

/-- What was extracted is a new typedef of a body, or a body. Such bodies are flat. -/
theorem Steps.extracted_cases (hx : x ∈ v.extracted) :
    (∃ d target, v.graph.get? x = some (.typedef d) ∧ d.target = some target ∧
      target ∈ v.extracted ∧ v.graph.HasBody target ∧ v.graph.Flat target) ∨
      v.graph.HasBody x ∧ v.graph.Flat x ∧ x.index < g.size := by
  have hu : g.Unnests v.graph v.extracted := steps.unnests
  have hbody (k : Handle) (hk : k ∈ v.extracted) (hb : v.graph.HasBody k) : v.graph.Flat k := by
    rcases steps.extracted_all k hk with ⟨hle, _⟩ | ⟨_, hf, _⟩
    · obtain ⟨n, hn, hb⟩ := hb
      obtain ⟨_, d, _, rfl, _⟩ := hu.fresh k n hn hle
      cases hb
    · exact hf
  rcases steps.extracted_all x hx with ⟨hle, hlt⟩ | ⟨hb, hf, _⟩
  · obtain ⟨n, hn⟩ := Graph.get?_of_lt hlt
    obtain ⟨_, d, target, rfl, ht, hin, hb⟩ := hu.fresh x n hn hle
    exact .inl ⟨d, target, hn, ht, hin, hb, hbody target hin hb⟩
  · obtain ⟨n, hn, _⟩ := hu.hasBody.mp hb
    exact .inr ⟨hb, hf, Graph.lt_of_get? hn⟩

theorem Steps.typedef_kept (hs : v.graph.Spells k j) (hj : j.index < g.size) :
    j ∉ v.extracted := by
  obtain ⟨d, hd⟩ := hs.2
  exact fun hin => absurd hj (Nat.not_lt.mpr (new_of_extracted steps.extracted_all hin hd))

end

/-! ## One item after the other -/

/-- What holds before the items of `rest` are passed: those that are not flat are
still to come, in their order. -/
structure Lined (m : Unnesting) (rest : List Handle) : Prop where
  closed : m.graph.Closed
  nodup : m.graph.module.items.Nodup
  items : ∀ k ∈ rest, k ∈ m.graph.module.items
  extracted : ∀ k ∈ m.extracted, k ∈ m.graph.module.items
  left : ∀ x ∈ m.graph.module.items, ∀ c, m.graph.Root x c → ¬m.graph.Flat c →
    x ∈ rest ∧ x ∉ m.extracted
  order : ∀ a b, [a, b].Sublist rest → a ∉ m.extracted → b ∉ m.extracted →
    m.graph.module.Precedes a b

/-- Also, each item has its typedefs in front. -/
structure Ordered (m : Unnesting) (rest : List Handle) : Prop extends Lined m rest where
  first : m.graph.TypedefsFirst

/-- The module list with what was extracted from `item`. -/
abbrev spliced (m v : Unnesting) (item : Handle) : Module :=
  m.graph.module.spliceBefore item v.extracted

section
variable {m : Unnesting} {item x j k t : Handle} {rest : List Handle}
  (ho : Lined m (item :: rest)) (free : item ∉ v.extracted)
include ho free

theorem Lined.splice_kept {a b : Handle} (hp : m.graph.module.Precedes a b)
    (ha : a ∉ v.extracted) (hb : b ∉ v.extracted) : (m.spliced v item).Precedes a b :=
  hp.splice ha hb free (ho.items item List.mem_cons_self)

theorem Lined.splice_new (ht : t ∈ v.extracted) (hx : x ∉ v.extracted)
    (hp : x = item ∨ m.graph.module.Precedes item x) : (m.spliced v item).Precedes t x := by
  have hitem : (m.spliced v item).Precedes t item :=
    Module.precedes_spliceBefore free ht (ho.items item List.mem_cons_self)
  rcases hp with rfl | hp
  · exact hitem
  · exact hitem.trans (Module.nodup_spliceBefore ho.nodup)
      (ho.splice_kept free hp free hx)

variable (steps : Steps ⟨m.graph, [], m.stats⟩ v)
include steps

/-- The fields of a body that is the root of an item, or inside of it, keep their
typedefs ahead of the item. -/
theorem Lined.field_kept {c : Handle} (left : item ∉ m.extracted) (hm : x ∈ m.graph.module.items)
    (hx : x ∉ v.extracted) (hroot : m.graph.Root x c)
    (hck : Relation.ReflTransGen m.graph.Holds c k) {kind : ContainerKind} {body' : Container}
    (hn' : v.graph.get? k = some (.container kind body')) {f' : Field} (hf' : f' ∈ body'.fields)
    (hs : v.graph.Spells f'.type j)
    (hahead : ∀ body, m.graph.get? k = some (.container kind body) → ∀ f ∈ body.fields,
      m.graph.Spells f.type j → m.graph.module.Precedes j x) :
    (m.spliced v item).Precedes j x := by
  have hu : m.graph.Unnests v.graph v.extracted := steps.unnests
  have hk : k.index < m.graph.size := by
    rcases Relation.reflTransGen_iff_eq_or_transGen.mp hck with rfl | hpath
    · exact hroot.lt_size
    · obtain ⟨n, hn, _⟩ := Graph.hasBody_of_holds hpath
      exact Graph.lt_of_get? hn
  obtain ⟨body, hn, f, hf, hff⟩ := hu.field hk hn' hf'
  have hlt : f.type.index < m.graph.size := ho.closed.inRange k _ hn _ (List.mem_map_of_mem hf)
  cases hff with
  | same =>
    obtain ⟨hold, hj⟩ := hu.spells ho.closed hlt hs
    have hp := hahead body hn _ hf hold
    exact ho.splice_kept free hp (steps.typedef_kept hs hj) hx
  | moved inline new node target extracted placed =>
    -- the body was not flat, so the item was still to be passed
    have hj := hs.eq_of_no_parts node rfl
    subst hj
    have hb : m.graph.HasBody f.type := by
      rcases steps.extracted_all f.type extracted with ⟨hle, _⟩ | ⟨hb, _⟩
      · exact absurd hlt (Nat.not_lt.mpr hle)
      · exact hu.hasBody.mp hb
    have hholds : m.graph.Holds k f.type := ⟨⟨kind, body, hn, f, hf, inline, rfl⟩, hb⟩
    have hdeep : Relation.TransGen m.graph.Holds c f.type := .tail' hck hholds
    obtain ⟨hrest, hnot⟩ := ho.left x hm c hroot fun hflat => hflat.not_holds hdeep
    refine ho.splice_new free placed hx ?_
    rcases List.mem_cons.mp hrest with rfl | hrest
    · exact .inl rfl
    · exact .inr (ho.order item x ((List.singleton_sublist.mpr hrest).cons_cons item) left hnot)

theorem Lined.field_extracted (hk : k ∈ v.extracted) (hlt : k.index < m.graph.size)
    {kind : ContainerKind} {body' : Container}
    (hn' : v.graph.get? k = some (.container kind body')) {f' : Field} (hf' : f' ∈ body'.fields)
    (hs : v.graph.Spells f'.type j)
    (hahead : ∀ body, m.graph.get? k = some (.container kind body) → ∀ f ∈ body.fields,
      m.graph.Spells f.type j → m.graph.module.Precedes j item) :
    (m.spliced v item).Precedes j k := by
  have hu : m.graph.Unnests v.graph v.extracted := steps.unnests
  have hitem := ho.items item List.mem_cons_self
  obtain ⟨body, hn, f, hf, hff⟩ := hu.field hlt hn' hf'
  cases hff with
  | same =>
    obtain ⟨hold, hj⟩ := hu.spells ho.closed
      (ho.closed.inRange k _ hn _ (List.mem_map_of_mem hf)) hs
    have hp := hahead body hn _ hf hold
    exact hp.spliced (steps.typedef_kept hs hj) free hk hitem ho.nodup
  | moved inline new node target extracted placed =>
    have hj := hs.eq_of_no_parts node rfl
    subst hj
    obtain ⟨hs, ks, he, hhs, hks, hkk⟩ :=
      steps.fieldsAhead ho.closed.inRange k hk kind body' hn' _ hf' new
    rw [spliced, he]
    exact Module.precedes_of_spliced (he ▸ free) hhs hks hkk hitem ho.nodup

end

section
variable {m m' : Unnesting} {item x j : Handle} {rest : List Handle}

theorem Ordered.prints_extracted {c type : Handle} (ho : Ordered m (item :: rest))
    (root : m.graph.Root item c) (steps : Steps ⟨m.graph, [], m.stats⟩ v)
    (free : item ∉ v.extracted)
    (reached : ∀ k ∈ v.extracted, m.graph.size ≤ k.index ∨ Relation.TransGen m.graph.Holds c k)
    (hx : x ∈ v.extracted)
    (hp : (v.graph.mapModule fun _ => m.spliced v item).Prints x type)
    (hs : v.graph.Spells type j) : (m.spliced v item).Precedes j x := by
  have hitem := ho.items item List.mem_cons_self
  rcases steps.extracted_cases hx with ⟨d, target, hd, htarget, hin, hb, hf⟩ | ⟨hb, hf, hlt⟩
  · cases hp with
    | field printed node field =>
      obtain ⟨c', hroot, hk⟩ := printed
      have hc' := hroot.of_typedef hd
      rw [htarget] at hc'
      cases hc'
      rcases hk with ⟨rfl, rfl | hnot⟩ | hpath
      · cases hb.of_get? hd
      · exact absurd ((Module.mem_spliceBefore hitem free).mpr (.inr hin)) hnot
      · exact absurd hpath hf.not_holds
    | target node htarget' =>
      cases hd.symm.trans node
      rw [htarget] at htarget'
      cases htarget'
      exact absurd hs (Graph.not_spells_of_hasBody hb)
    | function node => cases hd.symm.trans node
    | object node => cases hd.symm.trans node
  · cases hp with
    | field printed node field =>
      obtain ⟨c', hroot, hk⟩ := printed
      cases hroot.of_hasBody hb
      rcases hk with ⟨rfl, _⟩ | hpath
      · have hpath := (reached _ hx).resolve_left (Nat.not_le.mpr hlt)
        exact ho.field_extracted free steps hx hlt node field hs fun body hn f hf hs =>
          ho.first item hitem _ (.field ⟨c, root, .inr hpath⟩ hn hf) j hs
      · exact absurd hpath hf.not_holds
    | target node => cases hb.of_get? node
    | function node => cases hb.of_get? node
    | object node => cases hb.of_get? node

theorem Ordered.prints_kept {type : Handle} (ho : Ordered m (item :: rest))
    (left : item ∉ m.extracted) (steps : Steps ⟨m.graph, [], m.stats⟩ v)
    (free : item ∉ v.extracted) (tags : KeepsTags m.graph v.graph v.extracted)
    (hm : x ∈ m.graph.module.items) (hx : x ∉ v.extracted)
    (hp : (v.graph.mapModule fun _ => m.spliced v item).Prints x type)
    (hs : v.graph.Spells type j) : (m.spliced v item).Precedes j x := by
  have hu : m.graph.Unnests v.graph v.extracted := steps.unnests
  have hitem := ho.items item List.mem_cons_self
  have hold (n : Node) (hn : v.graph.get? x = some n) : x.index < m.graph.size :=
    Nat.lt_of_not_le fun hle => hx (hu.fresh x n hn hle).1
  -- other items than aggregates are what they were
  have hsame (hlt : type.index < m.graph.size) (hp : m.graph.Prints x type) :
      (m.spliced v item).Precedes j x := by
    obtain ⟨hspells, hj⟩ := hu.spells ho.closed hlt hs
    exact ho.splice_kept free (ho.first x hm type hp j hspells) (steps.typedef_kept hs hj) hx
  cases hp with
  | @field k kind body f printed node field =>
    obtain ⟨c', hroot', hk⟩ := printed
    have hroot : m.graph.Root x c' := hu.root_of_kept ho.closed.inRange tags hx hroot'
    have hprint : m.graph.PrintsBody x k := by
      refine ⟨c', hroot, hk.imp (.imp_right (.imp_right fun hnot hin => ?_)) hu.holds_trans⟩
      exact hnot ((Module.mem_spliceBefore hitem free).mpr (.inl hin))
    refine ho.field_kept free steps left hm hx hroot ?_ node field hs fun body hn f hf hs =>
      ho.first x hm _ (.field hprint hn hf) j hs
    rcases hk with ⟨rfl, _⟩ | hpath
    · exact .refl
    · exact (hu.holds_trans hpath).to_reflTransGen
  | target node htarget =>
    have hd := hu.old_typedef (hold _ node) node
    refine hsame (ho.closed.inRange x _ hd _ ?_) (.target hd htarget)
    rw [Node.children, htarget]
    exact List.mem_singleton_self _
  | function node =>
    obtain ⟨n, hn⟩ := Graph.get?_of_lt (hold _ node)
    obtain ⟨n', hn', hnn⟩ := hu.nodes x n hn
    cases hn'.symm.trans node
    cases hnn
    exact hsame (Graph.lt_of_get? hn) (.function hn)
  | object node =>
    obtain ⟨n, hn⟩ := Graph.get?_of_lt (hold _ node)
    obtain ⟨n', hn', hnn⟩ := hu.nodes x n hn
    cases hn'.symm.trans node
    cases hnn
    exact hsame (ho.closed.inRange x _ hn _ List.mem_cons_self) (.object hn)

theorem splice_module {item : Handle} (steps : Steps ⟨m.graph, [], m.stats⟩ v) :
    v.graph.mapModule (·.spliceBefore item v.extracted) =
      v.graph.mapModule fun _ => m.spliced v item := by
  unfold Graph.mapModule
  rw [steps.module]

theorem Lined.passes (ho : Lined m (item :: rest)) (h : Passes m item m') : Lined m' rest := by
  cases h with
  | skip extracted =>
    exact { ho with
      items := fun k hk => ho.items k (List.mem_cons_of_mem _ hk)
      left := fun x hx c hr hf => by
        obtain ⟨hmem, hnot⟩ := ho.left x hx c hr hf
        exact ⟨(List.mem_cons.mp hmem).resolve_left fun he => hnot (he ▸ extracted), hnot⟩
      order := fun a b hs => ho.order a b (hs.cons item) }
  | rootless rootless =>
    exact { ho with
      items := fun k hk => ho.items k (List.mem_cons_of_mem _ hk)
      left := fun x hx c hr hf => by
        obtain ⟨hmem, hnot⟩ := ho.left x hx c hr hf
        exact ⟨(List.mem_cons.mp hmem).resolve_left fun he => rootless c (he ▸ hr), hnot⟩
      order := fun a b hs => ho.order a b (hs.cons item) }
  | @root v _ c left root steps flat free reached tags =>
    have hu : m.graph.Unnests v.graph v.extracted := steps.unnests
    have hitem := ho.items item List.mem_cons_self
    have hmem (k : Handle) : k ∈ (m.spliced v item).items ↔
        k ∈ m.graph.module.items ∨ k ∈ v.extracted := Module.mem_spliceBefore hitem free
    rw [splice_module steps]
    constructor
    case closed =>
      have hclosed : (v.graph.mapModule fun _ => m.spliced v item).Closed :=
        (hu.closed ho.closed).mapModule _
      exact hclosed
    case nodup => exact Module.nodup_spliceBefore ho.nodup
    case items => exact fun k hk => (hmem k).mpr (.inl (ho.items k (List.mem_cons_of_mem _ hk)))
    case extracted =>
      exact fun k hk => (hmem k).mpr ((List.mem_append.mp hk).imp_left (ho.extracted k))
    case left =>
      intro x hx c' hr hf
      -- a root that is not flat is not extracted, and it is not the root of this item
      have hin : x ∉ v.extracted := by
        intro hin
        rcases steps.extracted_cases hin with ⟨d, target, hd, htarget, _, _, hflat⟩ | ⟨hb, hflat, _⟩
        · have hc' := hr.of_typedef hd
          rw [htarget] at hc'
          cases hc'
          exact hf hflat
        · cases hr.of_hasBody hb
          exact hf hflat
      have hroot : m.graph.Root x c' := hu.root_of_kept ho.closed.inRange tags hin hr
      obtain ⟨hrest, hnot⟩ :=
        ho.left x (((hmem x).mp hx).resolve_right hin) c' hroot fun hflat => hf (hu.flat hflat)
      refine ⟨(List.mem_cons.mp hrest).resolve_left fun he => ?_, ?_⟩
      · subst he
        exact hf (hroot.unique root ▸ flat)
      · rw [List.mem_append, not_or]
        exact ⟨hnot, hin⟩
    case order =>
      intro a b hs ha hb
      rw [List.mem_append, not_or] at ha hb
      exact ho.splice_kept free (ho.order a b (hs.cons item) ha.1 hb.1) ha.2 hb.2

theorem Ordered.passes (ho : Ordered m (item :: rest)) (h : Passes m item m') :
    Ordered m' rest := by
  refine { ho.toLined.passes h with first := ?_ }
  cases h with
  | skip extracted => exact ho.first
  | rootless rootless => exact ho.first
  | @root v _ c left root steps flat free reached tags =>
    rw [splice_module steps]
    intro x hx type hp j hs
    by_cases hin : x ∈ v.extracted
    · exact ho.prints_extracted root steps free reached hin hp hs
    · have hm := (Module.mem_spliceBefore (ho.items item List.mem_cons_self) free).mp hx
      exact ho.prints_kept left steps free tags (hm.resolve_right hin) hin hp hs

theorem Ordered.run (h : Run m rest m') (ho : Ordered m rest) : Ordered m' [] := by
  induction h with
  | nil m => exact ho
  | cons first _ ih => exact ih (ho.passes first)

end

theorem Lined.start (hg : g.Closed) (hn : g.module.items.Nodup) :
    Lined ⟨g, [], ⟨0, 0⟩⟩ g.module.items where
  closed := hg
  nodup := hn
  items _ := id
  extracted _ hk := nomatch hk
  left _ hx _ _ _ := ⟨hx, fun hk => nomatch hk⟩
  order _ _ hs _ _ := hs

theorem Run.typedefsFirst {m : Unnesting} (h : Run ⟨g, [], ⟨0, 0⟩⟩ g.module.items m)
    (hg : g.Closed) (hn : g.module.items.Nodup) (hf : g.TypedefsFirst) : m.graph.TypedefsFirst :=
  (Ordered.run h { Lined.start hg hn with first := hf }).first

end Unnesting

end CythonDecls
