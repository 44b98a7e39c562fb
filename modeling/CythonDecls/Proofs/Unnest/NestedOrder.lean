import CythonDecls.Proofs.Translation.ItemWalks
import CythonDecls.Proofs.Unnest.Ends
import CythonDecls.Proofs.Unnest.Names
import CythonDecls.Proofs.Unnest.Order

/-!
# Dependencies of nested bodies

A struct or union depends on the typedefs that its fields are written with, and
on those of the bodies that stand in place inside of it. Unnesting takes such a
body to the first item that has it inside: its own struct or union, or a typedef
that is a second name of that. Where both come behind what is inside, everything
that is extracted does.
-/

namespace CythonDecls

namespace Graph

def FieldSpells (g : Graph) (k j : Handle) : Prop :=
  ∃ kind body, g.get? k = some (.container kind body) ∧ ∃ f ∈ body.fields, g.Spells f.type j

/-- The typedef `j` is reached from the fields of the struct or union `x`, those of the
bodies inside of it included. -/
def Reaches (g : Graph) (x j : Handle) : Prop :=
  ∃ k, Relation.ReflTransGen g.Holds x k ∧ g.FieldSpells k j

/-- Each struct or union item comes behind the typedef items that are reached from it. -/
def DependenciesFirst (g : Graph) : Prop :=
  ∀ x ∈ g.module.items, ∀ j ∈ g.module.items, g.Reaches x j → g.module.Precedes j x

/-- Each typedef item of a struct or union comes behind the typedef items that are
reached from the bodies inside of that. -/
def SecondNamesLast (g : Graph) : Prop :=
  ∀ x ∈ g.module.items, ∀ d c, g.get? x = some (.typedef d) → d.target = some c →
    ∀ k, g.Holds c k → ∀ j ∈ g.module.items, g.Reaches k j → g.module.Precedes j x

/-- What unnesting an item extracts, and the item itself, come behind the typedef items
that are reached from there. -/
def RootsBehind (g : Graph) : Prop :=
  ∀ x ∈ g.module.items, ∀ c, g.Root x c →
    ∀ k, (k = c ∧ c = x) ∨ Relation.TransGen g.Holds c k →
      ∀ j ∈ g.module.items, g.FieldSpells k j → g.module.Precedes j x

section
variable {g g' : Graph} {ex : List Handle} {x j k : Handle}

theorem DependenciesFirst.rootsBehind (hd : g.DependenciesFirst) (hs : g.SecondNamesLast) :
    g.RootsBehind := by
  rintro x hx c (⟨rfl, _⟩ | ⟨d, _, _, hnode, htarget, _⟩) k hk j hj hkj
  · rcases hk with ⟨rfl, _⟩ | hpath
    · exact hd _ hx j hj ⟨_, .refl, hkj⟩
    · exact hd _ hx j hj ⟨k, hpath.to_reflTransGen, hkj⟩
  · rcases hk with ⟨rfl, rfl⟩ | hpath
    · obtain ⟨_, _, hbody, _⟩ := hkj
      cases hnode.symm.trans hbody
    · obtain ⟨l, hl, hlk⟩ := Relation.TransGen.head'_iff.mp hpath
      exact hs x hx d c hnode htarget l hl j hj ⟨k, hlk, hkj⟩

theorem Reaches.container (h : g.Reaches x j) :
    ∃ kind body, g.get? x = some (.container kind body) := by
  obtain ⟨k, hxk, kind, body, hn, _⟩ := h
  rcases Relation.ReflTransGen.cases_head hxk with rfl | ⟨_, ⟨⟨kind, body, hn, _⟩, _⟩, _⟩
  · exact ⟨kind, body, hn⟩
  · exact ⟨kind, body, hn⟩

theorem Unnests.reaches (hu : g.Unnests g' ex) (hg : g.Closed) (hx : x.index < g.size)
    (hj : j.index < g.size) (h : g'.Reaches x j) : g.Reaches x j := by
  obtain ⟨k, hxk, kind, body', hn', f', hf', hs⟩ := h
  have hold : Relation.ReflTransGen g.Holds x k := hxk.lift id fun _ _ => hu.holds
  have hk : k.index < g.size := by
    rcases Relation.reflTransGen_iff_eq_or_transGen.mp hold with rfl | hpath
    · exact hx
    · obtain ⟨n, hn, _⟩ := hasBody_of_holds hpath
      exact lt_of_get? hn
  obtain ⟨body, hn, f, hf, hff⟩ := hu.field hk hn' hf'
  refine ⟨k, hold, kind, body, hn, ?_⟩
  cases hff with
  | same =>
    have hlt := hg.inRange k _ hn _ (List.mem_map_of_mem hf)
    exact ⟨_, hf, (hu.spells hg hlt hs).1⟩
  | moved inline new node =>
    rw [hs.eq_of_no_parts node rfl] at hj
    exact absurd hj (Nat.not_lt.mpr new)

end

end Graph

namespace Unnesting

variable {u v : Unnesting} {g : Graph} {m m' : Unnesting} {item x j : Handle} {rest : List Handle}

/-- As `Ordered`, for what is reached from the fields. -/
structure Behind (m : Unnesting) (rest : List Handle) : Prop extends Lined m rest where
  roots : m.graph.RootsBehind

theorem Behind.rootsBehind {c : Handle} (ho : Behind m (item :: rest)) (left : item ∉ m.extracted)
    (root : m.graph.Root item c) (steps : Steps ⟨m.graph, [], m.stats⟩ v)
    (free : item ∉ v.extracted)
    (reached : ∀ k ∈ v.extracted, m.graph.size ≤ k.index ∨ Relation.TransGen m.graph.Holds c k)
    (tags : KeepsTags m.graph v.graph v.extracted) :
    (v.graph.mapModule fun _ => m.spliced v item).RootsBehind := by
  have hu : m.graph.Unnests v.graph v.extracted := steps.unnests
  have hitem := ho.items item List.mem_cons_self
  have hmem (k : Handle) : k ∈ (m.spliced v item).items ↔
      k ∈ m.graph.module.items ∨ k ∈ v.extracted := Module.mem_spliceBefore hitem free
  intro x hx c' hroot' k hk j hj ⟨kind, body', hn', f', hf', hs⟩
  have hroot' : v.graph.Root x c' := hroot'
  have hn' : v.graph.get? k = some (.container kind body') := hn'
  have hs : v.graph.Spells f'.type j := hs
  -- a typedef that was reached before is an item that stays
  have hjm {h : Handle} (hold : m.graph.Spells h j) : j ∈ m.graph.module.items := by
    obtain ⟨_, hd⟩ := hold.2
    exact ((hmem j).mp hj).resolve_right (steps.typedef_kept hs (Graph.lt_of_get? hd))
  by_cases hin : x ∈ v.extracted
  · rcases steps.extracted_cases hin with ⟨d, _, hd, htarget, _, hb, hflat⟩ | ⟨hb, hflat, hlt⟩
    · have hc' := hroot'.of_typedef hd
      rw [htarget] at hc'
      cases hc'
      rcases hk with ⟨rfl, rfl⟩ | hpath
      · cases hb.of_get? hd
      · exact absurd hpath hflat.not_holds
    · cases hroot'.of_hasBody hb
      rcases hk with ⟨rfl, _⟩ | hpath
      · have hpath := (reached _ hin).resolve_left (Nat.not_le.mpr hlt)
        refine ho.field_extracted free steps hin hlt hn' hf' hs fun body hn f hf hold => ?_
        exact ho.roots item hitem c root _ (.inr hpath) j (hjm hold) ⟨kind, body, hn, f, hf, hold⟩
      · exact absurd hpath hflat.not_holds
  · have hm := ((hmem x).mp hx).resolve_right hin
    have hroot : m.graph.Root x c' := hu.root_of_kept ho.closed.inRange tags hin hroot'
    have hk' : (k = c' ∧ c' = x) ∨ Relation.TransGen m.graph.Holds c' k :=
      hk.imp_right hu.holds_trans
    refine ho.field_kept free steps left hm hin hroot ?_ hn' hf' hs fun body hn f hf hold => ?_
    · rcases hk' with ⟨rfl, _⟩ | hpath
      · exact .refl
      · exact hpath.to_reflTransGen
    · exact ho.roots x hm c' hroot k hk' j (hjm hold) ⟨kind, body, hn, f, hf, hold⟩

theorem Behind.passes (ho : Behind m (item :: rest)) (h : Passes m item m') : Behind m' rest := by
  refine { ho.toLined.passes h with roots := ?_ }
  cases h with
  | skip extracted => exact ho.roots
  | rootless rootless => exact ho.roots
  | root left root steps flat free reached tags =>
    rw [splice_module steps]
    exact ho.rootsBehind left root steps free reached tags

theorem Behind.run (h : Run m rest m') (ho : Behind m rest) : Behind m' [] := by
  induction h with
  | nil m => exact ho
  | cons first _ ih => exact ih (ho.passes first)

theorem Passes.precedes {a b : Handle} (h : Passes m item m') (hitem : item ∈ m.graph.module.items)
    (hp : m.graph.module.Precedes a b) (ha : a ∉ m'.extracted) (hb : b ∉ m'.extracted) :
    m'.graph.module.Precedes a b := by
  cases h with
  | skip extracted => exact hp
  | rootless rootless => exact hp
  | root left root steps flat free reached tags =>
    rw [List.mem_append, not_or] at ha hb
    rw [splice_module steps]
    exact hp.splice ha.2 hb.2 free hitem

theorem Run.precedes {a b : Handle} {items : List Handle} (h : Run m items m')
    (hitems : ∀ k ∈ items, k ∈ m.graph.module.items)
    (hex : ∀ k ∈ m.extracted, k ∈ m.graph.module.items) (hp : m.graph.module.Precedes a b)
    (ha : a ∉ m'.extracted) (hb : b ∉ m'.extracted) : m'.graph.module.Precedes a b := by
  induction h with
  | nil m => exact hp
  | @cons m m₁ m₂ item items first rest ih =>
    have hitem := hitems item List.mem_cons_self
    obtain ⟨hex₁, hmem, _⟩ := first.items hitem hex
    obtain ⟨⟨ex, hgrow⟩, _⟩ := rest.unnests
    have hleft {k : Handle} (hk : k ∉ m₂.extracted) : k ∉ m₁.extracted :=
      fun hk₁ => hk (hgrow ▸ List.mem_append_left _ hk₁)
    exact ih (fun k hk => (hmem k).mpr (.inl (hitems k (List.mem_cons_of_mem _ hk)))) hex₁
      (first.precedes hitem hp (hleft ha) (hleft hb)) ha hb

/-- Where roots come behind their dependencies, everything does in the end that is
reached from an item with a tag, or was an item before. -/
theorem Run.dependencies (h : Run ⟨g, [], ⟨0, 0⟩⟩ g.module.items m) (hg : g.Closed)
    (hi : ∀ k ∈ g.module.items, k.index < g.size) (hn : g.module.items.Nodup)
    (hd : g.DependenciesFirst) (hs : g.SecondNamesLast) (hx : x ∈ m.graph.module.items)
    (hj : j ∈ m.graph.module.items) (hxj : m.graph.Reaches x j)
    (hknown : j ∈ g.module.items ∨ ∃ n, m.graph.get? x = some n ∧ n.tag?.isSome = true) :
    m.graph.module.Precedes j x := by
  have hu : g.Unnests m.graph m.extracted := h.unnests.2
  have hex : ∀ k ∈ m.extracted, Extracted g.size m.graph k :=
    h.extracted (Nat.le_refl _) fun _ hk => nomatch hk
  obtain ⟨kind, body, hbody⟩ := hxj.container
  have htagged (ht : ∃ n, m.graph.get? x = some n ∧ n.tag?.isSome = true) :
      m.graph.module.Precedes j x := by
    obtain ⟨n, hn', ht⟩ := ht
    rw [hbody] at hn'
    cases hn'
    obtain ⟨k, hxk, hkj⟩ := hxj
    have hroots := (Behind.run h { Lined.start hg hn with roots := hd.rootsBehind hs }).roots
    refine hroots x hx x (.inl ⟨rfl, kind, body, hbody, ht⟩) k ?_ j hj hkj
    exact (Relation.reflTransGen_iff_eq_or_transGen.mp hxk).imp_left fun he => ⟨he, rfl⟩
  rcases hknown with hold | ht
  · by_cases hin : x ∈ m.extracted
    · rcases hex x hin with ⟨hle, _⟩ | ⟨_, _, ht⟩
      · obtain ⟨_, _, _, he, _⟩ := hu.fresh x _ hbody hle
        cases he
      · exact htagged ⟨_, hbody, ht _ hbody⟩
    · have hmem := (h.items (fun _ => id) fun _ hk => nomatch hk).1
      have hx₀ := ((hmem x).mp hx).resolve_right hin
      have hlt := hi j hold
      have hj₀ : j ∉ m.extracted := by
        obtain ⟨_, _, _, _, _, _, _, _, _, hdecl⟩ := hxj
        exact fun hj => absurd hlt (Nat.not_lt.mpr (new_of_extracted hex hj hdecl))
      exact h.precedes (fun _ => id) (fun _ hk => nomatch hk)
        (hd x hx₀ j hold (hu.reaches hg (hi x hx₀) hlt hxj)) hj₀ hin
  · exact htagged ht

end Unnesting

/-- Where struct and union items, and typedef items that are second names of them, come
behind the typedef items that they depend on, unnesting keeps struct and union items
behind theirs, those included that it extracts. Only an item without a tag, inside of
which nothing is named, need not come behind the typedefs that unnesting makes. -/
theorem SourceUnit.unnest_dependencies {u : SourceUnit} {g : Graph} (hg : u.translate = .ok g)
    (hd : g.DependenciesFirst) (hs : g.SecondNamesLast) :
    (g.Acyclic → ∃ g' stats, g.unnest = .ok (g', stats)) ∧
      ∀ g' stats, g.unnest = .ok (g', stats) →
        ∀ x ∈ g'.module.items, ∀ j ∈ g'.module.items, g'.Reaches x j →
          (j ∈ g.module.items ∨ ∃ n, g'.get? x = some n ∧ n.tag?.isSome = true) →
            g'.module.Precedes j x := by
  have hnodup := nodup_items hg
  obtain ⟨t, hrun, rfl⟩ := translate_ok hg
  have s := (Translator.Sound.start.feed u).1
  rw [hrun] at s
  have hi (k : Handle) (hk : k ∈ t.graph.module.items) : k.index < t.graph.size := by
    obtain ⟨n, hn, _⟩ := s.items k hk
    exact Graph.lt_of_get? hn
  constructor
  · intro ha
    obtain ⟨m, hm, _⟩ := Unnesting.unnest_runs s.closed.inRange ha.ranked t.graph.inside_le hi
    exact ⟨m.graph, m.stats, hm⟩
  · intro g' stats hun x hx j hj hxj hknown
    obtain ⟨m, hm, rfl, _⟩ := Unnesting.unnest_ends s.closed.inRange hi hun
    exact hm.dependencies s.closed hi hnodup hd hs hx hj hxj hknown

namespace Graph

def Makes (g : Graph) (j : Handle) : Prop :=
  ∃ i : Fin g.nodes.size, (g.nodeAt i).typedef? = none ∧ j ∈ (g.nodeAt i).children

instance (g : Graph) (j : Handle) : Decidable (g.Makes j) :=
  inferInstanceAs (Decidable (∃ i : Fin g.nodes.size,
    (g.nodeAt i).typedef? = none ∧ j ∈ (g.nodeAt i).children))

theorem Reaches.makes {g : Graph} {x j : Handle} (h : g.Reaches x j) : g.Makes j := by
  have hnode {k : Handle} {n : Node} (hn : g.get? k = some n) (ht : n.typedef? = none)
      (hj : j ∈ n.children) : g.Makes j := by
    obtain ⟨hlt, rfl⟩ := Array.getElem?_eq_some_iff.mp hn
    exact ⟨⟨k.index, hlt⟩, ht, hj⟩
  obtain ⟨k, _, kind, body, hn, f, hf, hpath, _⟩ := h
  rcases Relation.ReflTransGen.cases_tail hpath with rfl | ⟨l, _, n, hl, hj⟩
  · exact hnode hn rfl (List.mem_map_of_mem hf)
  · refine hnode hl ?_ (Node.mem_children_of_mem_parts hj)
    cases n with
    | typedef d => cases hj
    | _ => rfl

theorem FieldSpells.of_field {g : Graph} {k j : Handle} {c : Container} {f : Field} {d : Typedef}
    (hc : g.container? k = some c) (hf : f ∈ c.fields) (hj : f.type = j)
    (hd : g.get? j = some (.typedef d)) : g.FieldSpells k j := by
  obtain ⟨kind, hk⟩ := container?_eq_some.mp hc
  exact ⟨kind, c, hk, f, hf, hj ▸ .refl, d, hd⟩

theorem DependenciesFirst.of_makes {g : Graph}
    (h : ∀ x ∈ g.module.items, (g.container? x).isSome = true →
      ∀ j ∈ g.module.items, g.Makes j → g.module.Precedes j x) : g.DependenciesFirst := by
  intro x hx j hj hxj
  obtain ⟨kind, body, hbody⟩ := hxj.container
  exact h x hx (by rw [container?_eq_some.mpr ⟨kind, hbody⟩]; rfl) j hj hxj.makes

theorem SecondNamesLast.of_makes {g : Graph}
    (h : ∀ x ∈ g.module.items, ∀ d ∈ (g.get? x).bind Node.typedef?, ∀ c ∈ d.target,
      (g.container? c).isSome = true → ∀ j ∈ g.module.items, g.Makes j → g.module.Precedes j x) :
    g.SecondNamesLast := by
  intro x hx d c hd hc k hk j hj hkj
  obtain ⟨⟨kind, body, hbody, _⟩, _⟩ := hk
  exact h x hx d (by rw [hd]; rfl) c hc (by rw [container?_eq_some.mpr ⟨kind, hbody⟩]; rfl) j hj
    hkj.makes

end Graph

namespace Sample

def number : TypedefDecl := ⟨"T", .word "int", none⟩

def second : TypedefDecl := ⟨"A_t", .container .struct (.reference "A"), none⟩

def inner : Item := .container .struct (.body (some "A")
  [.named "in" (.container .struct (.body none [.named "x" (.word "T")]))])

/-- The second name comes behind `T`. -/
def secondBehind : SourceUnit := ⟨"nested.h", [.typedef number, inner, .typedef second]⟩

/-- The second name comes ahead of `T`. -/
def secondAhead : SourceUnit :=
  ⟨"alias.h", [.container .struct (.reference "A"), .typedef second, .typedef number, inner]⟩

def secondB : TypedefDecl := ⟨"B_t", .container .struct (.reference "B"), none⟩

/-- `struct { struct B { struct { int x; } in; } b; }` and `typedef struct B B_t`. -/
def untagged : SourceUnit := ⟨"untagged.h", [.container .struct (.body none
  [.named "b" (.container .struct (.body (some "B")
    [.named "in" (.container .struct (.body none [.named "x" (.word "int")]))]))]),
  .typedef secondB]⟩

end Sample

theorem unnest_dependencies_secondBehind : ∃ g g' stats,
    Sample.secondBehind.translate = .ok g ∧ g.DependenciesFirst ∧ g.SecondNamesLast ∧ g.Acyclic ∧
      g.unnest = .ok (g', stats) ∧
      ∀ x ∈ g'.module.items, ∀ j ∈ g'.module.items, g'.Reaches x j →
        (j ∈ g.module.items ∨ ∃ n, g'.get? x = some n ∧ n.tag?.isSome = true) →
          g'.module.Precedes j x := by
  have h : ∃ g ∈ Sample.secondBehind.translate.toOption,
      (∀ x ∈ g.module.items, (g.container? x).isSome = true →
        ∀ j ∈ g.module.items, g.Makes j → g.module.Precedes j x) ∧
      (∀ x ∈ g.module.items, ∀ d ∈ (g.get? x).bind Node.typedef?, ∀ c ∈ d.target,
        (g.container? c).isSome = true →
          ∀ j ∈ g.module.items, g.Makes j → g.module.Precedes j x) ∧
      ∀ i : Fin g.nodes.size, ∀ c ∈ (g.nodeAt i).container?, ∀ f ∈ c.fields,
        f.inline = true → 5 - f.type.index < 5 - i.val := by decide +kernel
  obtain ⟨g, hg, hd, hs, hrank⟩ := h
  have hg := Graph.eq_ok_of_mem_toOption hg
  have hd : g.DependenciesFirst := .of_makes hd
  have hs : g.SecondNamesLast := .of_makes hs
  have ha : g.Acyclic := .of_nodes (5 - ·.index) hrank
  obtain ⟨hends, hkept⟩ := SourceUnit.unnest_dependencies hg hd hs
  obtain ⟨g', stats, hun⟩ := hends ha
  exact ⟨g, g', stats, hg, hd, hs, ha, hun, hkept g' stats hun⟩

/-- The inner struct `__A_in` goes before the second name of `A`, and so ahead of `T`. The
struct without a tag stays ahead of the new typedef of a field in its inner struct. -/
theorem dependencies_lost :
    (∃ g g' stats n, Sample.secondAhead.translate = .ok g ∧ g.DependenciesFirst ∧
      g.unnest = .ok (g', stats) ∧ g'.get? ⟨4⟩ = some n ∧ n.tag? = some "__A_in" ∧
      ⟨4⟩ ∈ g'.module.items ∧ ⟨2⟩ ∈ g'.module.items ∧ g'.Reaches ⟨4⟩ ⟨2⟩ ∧
      ¬g'.module.Precedes ⟨2⟩ ⟨4⟩) ∧
    ∃ g g' stats n, Sample.untagged.translate = .ok g ∧ g.DependenciesFirst ∧ g.SecondNamesLast ∧
      g.unnest = .ok (g', stats) ∧ g'.get? ⟨0⟩ = some n ∧ n.tag? = none ∧
      ⟨0⟩ ∈ g'.module.items ∧ ⟨5⟩ ∈ g'.module.items ∧ g'.Reaches ⟨0⟩ ⟨5⟩ ∧
      ¬g'.module.Precedes ⟨5⟩ ⟨0⟩ := by
  constructor
  · have h : ∃ g ∈ Sample.secondAhead.translate.toOption,
        (∀ x ∈ g.module.items, (g.container? x).isSome = true →
          ∀ j ∈ g.module.items, g.Makes j → g.module.Precedes j x) ∧
        ∃ r ∈ g.unnest.toOption,
          r.1.get? ⟨4⟩ = some (.container .struct
            ⟨some "__A_in", [⟨"x", ⟨2⟩, .readWrite, false⟩], none⟩) ∧
          r.1.get? ⟨2⟩ = some (.typedef (Typedef.mk "T" (some ⟨3⟩) none)) ∧
          r.1.module.items = [⟨4⟩, ⟨5⟩, ⟨1⟩, ⟨2⟩, ⟨0⟩] := by decide +kernel
    obtain ⟨g, hg, hd, r, hr, hbody, hdecl, hitems⟩ := h
    have hfield : r.1.FieldSpells ⟨4⟩ ⟨2⟩ :=
      .of_field (Graph.container?_eq_some.mpr ⟨_, hbody⟩) (List.mem_singleton_self _) rfl hdecl
    refine ⟨g, r.1, r.2, _, Graph.eq_ok_of_mem_toOption hg, .of_makes hd,
      Graph.eq_ok_of_mem_toOption hr, hbody, rfl, by simp [hitems], by simp [hitems],
      ⟨_, .refl, hfield⟩, ?_⟩
    rw [Module.Precedes, hitems]
    decide
  · have h : ∃ g ∈ Sample.untagged.translate.toOption,
        (∀ j ∈ g.module.items, ¬g.Makes j) ∧
        ∃ r ∈ g.unnest.toOption,
          r.1.get? ⟨0⟩ = some (.container .struct ⟨none, [⟨"b", ⟨1⟩, .readWrite, true⟩], none⟩) ∧
          r.1.get? ⟨1⟩ = some (.container .struct
            ⟨some "B", [⟨"in", ⟨5⟩, .readWrite, false⟩], none⟩) ∧
          r.1.get? ⟨5⟩ = some (.typedef (Typedef.mk "__B_in_t" (some ⟨2⟩) none)) ∧
          r.1.module.items = [⟨0⟩, ⟨2⟩, ⟨5⟩, ⟨4⟩] := by decide +kernel
    obtain ⟨g, hg, hno, r, hr, houter, hbody, hdecl, hitems⟩ := h
    have hfield : r.1.FieldSpells ⟨1⟩ ⟨5⟩ :=
      .of_field (Graph.container?_eq_some.mpr ⟨_, hbody⟩) (List.mem_singleton_self _) rfl hdecl
    have hholds : r.1.Holds ⟨0⟩ ⟨1⟩ :=
      ⟨⟨_, _, houter, _, List.mem_singleton_self _, rfl, rfl⟩, _, hbody, rfl⟩
    refine ⟨g, r.1, r.2, _, Graph.eq_ok_of_mem_toOption hg,
      .of_makes fun _ _ _ j hj hm => absurd hm (hno j hj),
      .of_makes fun _ _ _ _ _ _ _ j hj hm => absurd hm (hno j hj),
      Graph.eq_ok_of_mem_toOption hr, houter, rfl, by simp [hitems], by simp [hitems],
      ⟨_, .single hholds, hfield⟩, ?_⟩
    rw [Module.Precedes, hitems]
    decide

end CythonDecls
