import CythonDecls.Proofs.Translation.TypedefsFirst
import CythonDecls.Proofs.Unnest.Names

/-!
# Where a definition stands

A definition at top level takes the place of earlier mentions, so it stands behind all
that was declared before it. One that is met inside of another declaration only gets
there if its tag has no place yet: where the tag was mentioned at top level, the
definition stays with the mention.
-/

namespace CythonDecls

section
variable {t t' : Translator} {is : List Item} {es : List Entry} {a c : Handle} {b : Body}

theorem Entry.Made.body_of_defines {e : Entry} (h : e.Made t t') (hd : e.item.defines = true) :
    ∃ b, b.place = .item ∧ (b, e.node) ∈ e.bodies := by
  have hown : ∃ b ∈ e.item.bodies, b.place = .item := by
    cases hi : e.item with
    | container kind spec =>
      obtain ⟨tag, _ | ms, location⟩ := spec
      · simp [hi, Item.defines] at hd
      · exact ⟨_, List.mem_append_right _ (List.mem_singleton_self _), rfl⟩
    | enumeration spec =>
      obtain ⟨tag, _ | vs, location⟩ := spec
      · simp [hi, Item.defines] at hd
      · exact ⟨_, List.mem_singleton_self _, rfl⟩
    | _ => simp [hi, Item.defines] at hd
  obtain ⟨b, hb, hplace⟩ := hown
  rw [← h.writing.bodies] at hb
  obtain ⟨⟨b, x⟩, hp, rfl⟩ := List.mem_map.mp hb
  have hat := h.placed _ hp
  simp only [PlacedAt, hplace] at hat
  exact ⟨b, hplace, hat ▸ hp⟩

namespace Stage

variable (s : Stage .start is t' es)
  (hk : ((es.flatMap (·.item.bodies)).filterMap Body.key?).Nodup) (hb : (b, c) ∈ s.entry.bodies)
include hk hb

theorem ne_of_place (hplace : b.place ≠ .item) :
    ∀ e ∈ s.entry :: s.left, e.item.defines = true → c ≠ e.node := by
  intro e he hdefines hc
  rcases List.mem_cons.mp he with rfl | he
  · obtain ⟨b', hplace', hb'⟩ := s.made.body_of_defines hdefines
    have hsame : (b, c) = (b', s.entry.node) :=
      List.inj_on_of_nodup_map s.made.writing.once hb hb' hc
    cases hsame
    exact hplace hplace'
  · obtain ⟨s', rfl⟩ := s.back.stage e he
    obtain ⟨b', _, hb'⟩ := s'.made.body_of_defines hdefines
    have hmem : (b', s'.entry.node) ∈ s.left.flatMap (·.bodies) :=
      List.mem_flatMap.mpr ⟨_, he, hb'⟩
    exact s.made.writing.disjoint s.sound (s.back_writing hk)
      ((s.keys hk).sublist ((List.sublist_append_right ..).filterMap _)) _ hb _ hmem hc

/-- If the node of a body is an item before the body is read, an earlier item mentions its
tag. -/
theorem mention_of_mem (hc : c ∈ s.start.graph.module.items) :
    ∃ i ∈ s.before, i.isTypedef = false ∧ b.key? ≠ none ∧ i.key? = b.key? := by
  obtain ⟨s', _, hplaced⟩ := s.front.placed hc List.not_mem_nil
  have hnode : c = s'.entry.node := by
    refine hplaced.resolve_right fun hh => ?_
    obtain ⟨b', _, hb'⟩ := s'.made.nested c hh
    exact s.not_written_before hk (List.mem_flatMap.mpr ⟨_, s'.entry_mem, hb'⟩) hb rfl
  obtain ⟨n, hn⟩ : ∃ n, s'.stop.graph.get? c = some n := by
    obtain ⟨n, hn, _⟩ := s'.sound.items c (hnode ▸ s'.made.filed.node)
    exact ⟨n, hn⟩
  have hagg : n.isAggregate = true := by
    obtain ⟨m, hm, ha⟩ := s.made.writing.aggregate hb
    obtain ⟨m', hm', hbecomes⟩ := (s'.extension.graph.trans s.extend.graph) c n hn
    rw [hm] at hm'
    cases hm'
    exact hbecomes.isAggregate.symm.trans ha
  have hsorts := s'.made.declares.sorts (hnode ▸ hn)
  have hkey (ha : s'.entry.item.Aggregate s'.stop.graph s'.entry.node c) :=
    s.key_of_aggregate hk hb s' ha
  refine ⟨s'.entry.item, s'.item_mem, ?_⟩
  rcases Item.aggregate_of_sorts hsorts hagg with ⟨kind, spec, hi⟩ | ⟨spec, hi⟩
  · exact ⟨by rw [hi]; rfl, hkey (by rw [hi]; exact hnode)⟩
  · exact ⟨by rw [hi]; rfl, hkey (by rw [hi]; exact hnode)⟩

end Stage

end

/-- What is settled before a definition is read precedes it, if the definition is an item
itself, or else if its tag has no place yet. The tag has one only where an earlier item
mentions it, and then the definition keeps that place. -/
theorem SourceUnit.definitions_placed {u : SourceUnit} {g : Graph} (hg : u.translate = .ok g)
    (hk : (u.bodies.filterMap Body.key?).Nodup) :
    ∃ t es, t.graph = g ∧ Reads .start u.items t es ∧
      ∀ (s : Stage .start u.items t es) (b : Body) (c : Handle), (b, c) ∈ s.entry.bodies →
        c ∈ g.module.items →
          (c ∈ s.start.graph.module.items →
            ∃ i ∈ s.before, i.isTypedef = false ∧ b.key? ≠ none ∧ i.key? = b.key?) ∧
          ∀ a ∈ s.start.graph.module.items, s.start.graph.Settled a →
            (b.place = .item ∨ c ∉ s.start.graph.module.items → g.module.Precedes a c) ∧
            (b.place ≠ .item → c ∈ s.start.graph.module.items →
              (g.module.Precedes a c ↔ s.start.graph.module.Precedes a c)) := by
  obtain ⟨t, es, rfl, hread, _⟩ := u.reads hg hk
  have hkeys : ((es.flatMap (·.item.bodies)).filterMap Body.key?).Nodup := by
    have hsub := (hread.sublist.flatMap Item.bodies).filterMap Body.key?
    rw [List.flatMap_map] at hsub
    exact hk.sublist hsub
  refine ⟨t, es, rfl, hread, fun s b c hb hc => ⟨s.mention_of_mem hkeys hb, ?_⟩⟩
  intro a ha hs
  have hback := Reads.enter s.sound s.extend s.made s.back
  constructor
  · intro hor
    by_cases hmem : c ∈ s.start.graph.module.items
    · have hplace : b.place = .item := hor.resolve_right fun hno => hno hmem
      have hnode := s.eq_node hb hplace
      subst hnode
      exact s.precedes_moved ha hs (s.made.defines_of_body hb) hc
    · exact s.precedes ha hs hc fun hin => absurd hin hmem
  · intro hplace hmem
    constructor
    · intro hprec
      by_contra hno
      -- then `c` came first and still does
      have hne : a ≠ c := by
        rintro rfl
        exact hprec.asymm (hread.nodup .nil) hprec
      have hbefore := (Module.precedes_or ha hmem hne).resolve_left hno
      have hstill := hback.precedes s.start_nodup hmem (s.ne_of_place hkeys hb hplace)
        (hback.mem_items_of_mem ha) fun _ => hbefore
      exact hprec.asymm (hread.nodup .nil) hstill
    · exact fun hprec => s.precedes ha hs hc fun _ => hprec

namespace Sample

/-- `struct S`, which the units below define later. -/
def mention : Item := .container .struct (.reference "S")

def body : ContainerSpec := .body (some "S") [.named "x" (.word "int")]

/-- Defines `struct S` after `int n`. -/
def atTop : SourceUnit := ⟨"s.h",
  [mention, .declaration (.named "n" (.word "int")), .container .struct body]⟩

/-- Defines `struct S` inside of the declaration of `p`, after `int n`. -/
def inDeclaration : SourceUnit := ⟨"s.h", [mention, .declaration (.named "n" (.word "int")),
  .declaration (.named "p" (.pointer (.container .struct body)))]⟩

end Sample

theorem definitions_placed_atTop : (Sample.atTop.bodies.filterMap Body.key?).Nodup ∧
    ∃ g, Sample.atTop.translate = .ok g ∧
    ∃ t es, t.graph = g ∧ Reads .start Sample.atTop.items t es ∧
      ∀ (s : Stage .start Sample.atTop.items t es) (b : Body) (c : Handle),
        (b, c) ∈ s.entry.bodies → c ∈ g.module.items →
          (c ∈ s.start.graph.module.items →
            ∃ i ∈ s.before, i.isTypedef = false ∧ b.key? ≠ none ∧ i.key? = b.key?) ∧
          ∀ a ∈ s.start.graph.module.items, s.start.graph.Settled a →
            (b.place = .item ∨ c ∉ s.start.graph.module.items → g.module.Precedes a c) ∧
            (b.place ≠ .item → c ∈ s.start.graph.module.items →
              (g.module.Precedes a c ↔ s.start.graph.module.Precedes a c)) := by
  have hk : (Sample.atTop.bodies.filterMap Body.key?).Nodup := by decide
  have h : Sample.atTop.translate.toOption.isSome = true := by decide +kernel
  obtain ⟨g, hg⟩ := Option.isSome_iff_exists.mp h
  have hg := Graph.eq_ok_of_mem_toOption hg
  exact ⟨hk, g, hg, SourceUnit.definitions_placed hg hk⟩

/-- The struct stays ahead of `int n`, though it is defined behind it. -/
theorem inDeclaration_not_placed :
    (Sample.inDeclaration.bodies.filterMap Body.key?).Nodup ∧
      ∃ g kind c v, Sample.inDeclaration.translate = .ok g ∧
        g.get? ⟨0⟩ = some (.container kind c) ∧ c.tag = some "S" ∧ c.fields ≠ [] ∧
        g.get? ⟨2⟩ = some (.object v) ∧ v.name = "n" ∧ ⟨0⟩ ∈ g.module.items ∧
        ⟨2⟩ ∈ g.module.items ∧ ¬g.module.Precedes ⟨2⟩ ⟨0⟩ := by
  have h : ∃ g ∈ Sample.inDeclaration.translate.toOption,
      g.get? ⟨0⟩ = some (.container .struct ⟨some "S", [⟨"x", ⟨1⟩, .readWrite, false⟩], none⟩) ∧
        g.get? ⟨2⟩ = some (.object ⟨"n", ⟨1⟩, none⟩) ∧ g.module.items = [⟨0⟩, ⟨2⟩, ⟨4⟩] := by
    decide +kernel
  obtain ⟨g, hg, hs, hv, hitems⟩ := h
  have hnot : ¬g.module.Precedes ⟨2⟩ ⟨0⟩ := by
    unfold Module.Precedes
    rw [hitems]
    decide
  exact ⟨by decide, g, _, _, _, Graph.eq_ok_of_mem_toOption hg, hs, rfl, by simp, hv, rfl,
    by simp [hitems], by simp [hitems], hnot⟩

end CythonDecls
