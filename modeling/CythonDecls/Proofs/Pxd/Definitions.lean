import CythonDecls.Proofs.Pxd.Blocks
import CythonDecls.Proofs.Translation.Units
import CythonDecls.Proofs.Unnest.Passes
import Mathlib.Data.List.Nodup
import Mathlib.Data.List.Perm.Subperm

/-!
# Every definition is printed once

From the tree to the blocks a body goes one of four ways: it is an item, it is
hoisted in front of its item, it is extracted in front of its item, or a typedef
declares it. None is lost on the way, and each has one block, with a line for
every field or enumerator.
-/

namespace CythonDecls

/-- Tags and names are declared once, and a struct or union that is an item has a tag. -/
structure SourceUnit.Distinct (u : SourceUnit) : Prop where
  tags : (u.bodies.filterMap Body.key?).Nodup
  typedefs : (u.items.filterMap Item.typedefName?).Nodup
  functions : (u.items.filterMap Item.functionName?).Nodup
  tagged : ∀ kind spec, Item.container kind spec ∈ u.items → spec.tag.isSome = true

/-- The body has fields or enumerators of its own. -/
def Body.isShown (b : Body) : Bool := b.place ≠ .spliced ∧ b.names ≠ []

/-- The bodies that are shown, each with the typedefs that are declared once its item is read. -/
def SourceUnit.shown (u : SourceUnit) : List (Body × List String) :=
  (bodiesWith [] u.items).filter (·.1.isShown)

/-- Where the node of a body is found, among those of the bodies `L`. -/
def PlacedIn (g : Graph) (L : List (Body × Handle)) (p : Body × Handle) : Prop :=
  match p.1.place with
  | .item => p.2 ∈ g.module.items
  | .target => ∃ x ∈ g.module.items, ∃ d, g.get? x = some (.typedef d) ∧ d.target = some p.2
  | .member => ∃ q ∈ L, q.1.place ≠ .spliced ∧ g.Inline q.2 p.2
  | .spliced => True
  | .nested => p.2 ∈ g.module.items

/-- What a unit with distinct names leaves behind. -/
structure SourceUnit.Left (u : SourceUnit) (typedefs : Table String Handle) (g : Graph)
    (L : List (Body × Handle)) : Prop where
  closed : g.Closed
  bodies : List.Forall₂ (fun (q : Body × List String) (p : Body × Handle) =>
    p.1 = q.1 ∧ BodyAt (typedefs.only q.2) g p.2 p.1) (bodiesWith [] u.items) L
  once : (L.map Prod.snd).Nodup
  all : ∀ h, g.HasBody h → h ∈ L.map Prod.snd
  nested : g.Nested [] (L.map Prod.snd)
  inRange : ∀ h ∈ g.module.items, h.index < g.size
  items : g.module.items.Nodup
  tagged : ∀ h ∈ g.module.items, ∀ kind c, g.get? h = some (.container kind c) → c.tag.isSome = true
  placed : ∀ p ∈ L, PlacedIn g L p

theorem Entry.Filed.tagged {e : Entry} {g : Graph} (hf : e.Filed g)
    (hitem : ∀ kind spec, e.item = .container kind spec → spec.tag.isSome = true) {h : Handle}
    (hh : h = e.node ∨ h ∈ e.hoisted) {kind : ContainerKind} {c : Container}
    (hc : g.get? h = some (.container kind c)) : c.tag.isSome = true := by
  rcases hh with rfl | hh
  · have hd := hf.declares
    cases he : e.item with
    | typedef d =>
      rw [he] at hd
      obtain ⟨n, _, hn, _⟩ := hd
      rw [hc] at hn
      cases hn
    | container kind' spec =>
      rw [he] at hd
      obtain ⟨tag, ms, location⟩ := spec
      have htag : tag.isSome = true := hitem kind' _ he
      unfold DeclaresAt Denotes at hd
      obtain ⟨c', hc', ht⟩ := hd
      rw [hc] at hc'
      cases hc'
      rw [ht htag]
      exact htag
    | enumeration spec =>
      rw [he] at hd
      obtain ⟨tag, es, location⟩ := spec
      unfold DeclaresAt Denotes at hd
      obtain ⟨e', he', _⟩ := hd
      rw [hc] at he'
      cases he'
    | declaration d =>
      rw [he] at hd
      obtain ⟨name, type, location⟩ := d
      obtain ⟨_, _, ⟨f, hn, _⟩ | ⟨v, hn, _⟩⟩ := hd
      · rw [hc] at hn
        cases hn
      · rw [hc] at hn
        cases hn
    | ignored what =>
      rw [he] at hd
      exact hd.elim
  · obtain ⟨b, hb, hmem⟩ := hf.nested h hh
    have hat := hf.placed _ hmem
    unfold PlacedAt at hat
    rw [hb] at hat
    exact hat.2 kind c hc

theorem SourceUnit.Distinct.left {u : SourceUnit} (hu : u.Distinct) {g : Graph}
    (hg : u.translate = .ok g) : ∃ t L, Translator.start.feed u = (.ok ⟨⟩, t) ∧ t.graph = g ∧
      u.Left t.typedefs g L := by
  obtain ⟨t, es, rfl, hreads, hrun⟩ := u.reads hg hu.tags
  have hwith : bodiesWith [] (es.map (·.item)) = bodiesWith [] u.items :=
    hreads.bodies hu.typedefs hu.functions (fun i _ => ⟨fun _ _ => rfl, fun _ _ => rfl⟩) []
  have hbodies : es.flatMap (·.item.bodies) = u.bodies := by
    rw [SourceUnit.bodies, ← bodiesWith_fst [], ← hwith, bodiesWith_fst, List.flatMap_map]
  have hk : ((es.flatMap (·.item.bodies)).filterMap Body.key?).Nodup := hbodies ▸ hu.tags
  have hw := hreads.writing hk
  have s := hreads.sound .start
  have hfiled := hreads.filed hk
  have hmem {h : Handle} (hh : h ∈ t.graph.module.items) :
      ∃ e ∈ es, h = e.node ∨ h ∈ e.hoisted := (hreads.mem_items hh).resolve_left (nomatch ·)
  refine ⟨t, es.flatMap (·.bodies), hrun, rfl, ?_⟩
  constructor
  case closed => exact s.closed
  case bodies =>
    rw [← hwith]
    exact hreads.tables hfiled fun name => (Table.find?_only t.typedefs [] name).symm
  case once => exact hw.once
  case all =>
    -- the walk starts with an empty graph, so every body was written on the way
    rintro h ⟨n, hn, hb⟩
    by_contra hnot
    exact nomatch hw.step.bodies h n hn hb hnot
  case nested => exact hw.nested
  case inRange =>
    intro h hh
    obtain ⟨n, hn, _⟩ := s.items h hh
    exact Graph.lt_of_get? hn
  case items => exact hreads.nodup .nil
  case tagged =>
    intro h hh kind c hc
    obtain ⟨e, he, hh⟩ := hmem hh
    refine (hfiled e he).tagged (fun kind spec hitem => hu.tagged kind spec ?_) hh hc
    exact hitem ▸ hreads.sublist.subset (List.mem_map_of_mem he)
  case placed =>
    intro p hp
    obtain ⟨e, he, hpe⟩ := List.mem_flatMap.mp hp
    have hf := hfiled e he
    have hat := hf.placed p hpe
    unfold PlacedAt at hat
    unfold PlacedIn
    cases hplace : p.1.place with
    | item =>
      rw [hplace] at hat
      exact hat ▸ hf.node
    | target =>
      rw [hplace] at hat
      exact ⟨e.node, hf.node, hat⟩
    | member =>
      rw [hplace] at hat
      obtain ⟨q, hq, hs, hi⟩ := hat
      exact ⟨q, List.mem_flatMap.mpr ⟨e, he, hq⟩, hs, hi⟩
    | spliced => trivial
    | nested =>
      rw [hplace] at hat
      exact hf.hoisted _ hat.1

/-! ## Nothing is lost while unnesting -/

theorem length_le_size {g : Graph} {hs : List Handle} (hn : hs.Nodup)
    (hlt : ∀ h ∈ hs, h.index < g.size) : hs.length ≤ g.size := by
  have hinj : Function.Injective Handle.index := fun ⟨_⟩ ⟨_⟩ h => congrArg Handle.mk h
  have hsub : hs.map Handle.index ⊆ List.range g.size := by
    intro i hi
    obtain ⟨h, hh, rfl⟩ := List.mem_map.mp hi
    exact List.mem_range.mpr (hlt h hh)
  have hle := (List.subperm_of_subset (List.Nodup.map hinj hn) hsub).length_le
  rwa [List.length_map, List.length_range] at hle

theorem BodyAt.hasBody {typedefs : Table String Handle} {g : Graph} {h : Handle} {b : Body}
    (hb : BodyAt typedefs g h b) (hne : b.names ≠ []) : g.HasBody h := by
  cases b with
  | container place kind tag ms =>
    obtain ⟨c, hc, _, hfields⟩ := hb
    refine ⟨_, hc, ?_⟩
    have hlen : c.fields.length = (resultingFields ms).length := hfields.length_eq.symm
    cases hcf : c.fields with
    | nil =>
      rw [hcf] at hlen
      exact absurd (List.map_eq_nil_iff.mpr (List.eq_nil_of_length_eq_zero hlen.symm)) hne
    | cons _ _ => simp [Node.hasBody, Node.isAggregate, Node.isOpaque, hcf]
  | enumeration place tag es =>
    obtain ⟨e, he, _, hvalues⟩ := hb
    refine ⟨_, he, ?_⟩
    cases hev : e.values with
    | nil =>
      rw [hev] at hvalues
      exact absurd hvalues.symm hne
    | cons _ _ => simp [Node.hasBody, Node.isAggregate, Node.isOpaque, hev]

/-- What the unnested graph `g'` holds of a unit that left `g`. -/
structure SourceUnit.Unnested (g g' : Graph) (ex : List Handle) : Prop where
  unnests : g.Unnests g' ex
  items : ∀ k, k ∈ g'.module.items ↔ k ∈ g.module.items ∨ k ∈ ex
  once : g'.module.items.Nodup
  extracted : ∀ k ∈ ex, Unnesting.Extracted g.size g' k
  flat : ∀ item ∈ g.module.items, ∀ c, g.Root item c → g'.Flat c

theorem Graph.Nested.unnest_runs {g : Graph} {hs : List Handle} (hn : g.Nested [] hs)
    (hall : ∀ h, g.HasBody h → h ∈ hs) (once : hs.Nodup) (hlt : ∀ h ∈ hs, h.index < g.size)
    (hg : g.InRange) (hi : ∀ h ∈ g.module.items, h.index < g.size) :
    ∃ m, g.unnest = .ok (m.graph, m.stats) ∧ Unnesting.Run ⟨g, [], ⟨0, 0⟩⟩ g.module.items m :=
  have hrank (h : Handle) : hs.idxOf h ≤ g.size :=
    Nat.le_trans List.idxOf_le_length (length_le_size once hlt)
  Unnesting.unnest_runs hg (hn.ranked hall) hrank hi

theorem Unnesting.Run.unnested {g : Graph} {m : Unnesting}
    (h : Run ⟨g, [], ⟨0, 0⟩⟩ g.module.items m) (hi : ∀ h ∈ g.module.items, h.index < g.size)
    (hn : g.module.items.Nodup) : SourceUnit.Unnested g m.graph m.extracted := by
  obtain ⟨hitems, honce⟩ := h.items (fun _ hk => hk) (fun _ hk => nomatch hk)
  refine ⟨h.unnests.2, hitems, honce hn, ?_, ?_⟩
  · exact h.extracted (Nat.le_refl _) fun _ hk => nomatch hk
  · intro item hitem c hroot
    exact h.flat (Nat.le_refl _) hi (fun _ hk => nomatch hk) hitem hroot

theorem SourceUnit.Unnested.inRange {g g' : Graph} {ex : List Handle} (h : Unnested g g' ex)
    (hi : ∀ h ∈ g.module.items, h.index < g.size) : ∀ h ∈ g'.module.items, h.index < g'.size := by
  intro k hk
  rcases (h.items k).mp hk with hk | hk
  · exact Nat.lt_of_lt_of_le (hi k hk) h.unnests.size
  · exact (h.extracted k hk).lt_size

theorem SourceUnit.Left.nodes {u : SourceUnit} {typedefs : Table String Handle} {g : Graph}
    {L : List (Body × Handle)} (hl : u.Left typedefs g L) {p : Body × Handle} (hp : p ∈ L) :
    ∃ typedefs, BodyAt typedefs g p.2 p.1 := by
  have hbodies := hl.bodies.flip.imp fun p _ hb =>
    (⟨⟨_, hb.2⟩, trivial⟩ : (∃ typedefs, BodyAt typedefs g p.2 p.1) ∧ True)
  exact ((List.forall₂_and_left ..).mp hbodies).1 p hp

theorem SourceUnit.Left.unnest {u : SourceUnit} {typedefs : Table String Handle} {g : Graph}
    {L : List (Body × Handle)} (hl : u.Left typedefs g L) :
    ∃ g' stats ex, g.unnest = .ok (g', stats) ∧ Unnested g g' ex := by
  have hlt : ∀ h ∈ L.map Prod.snd, h.index < g.size := by
    intro h hh
    obtain ⟨p, hp, rfl⟩ := List.mem_map.mp hh
    obtain ⟨_, hb⟩ := hl.nodes hp
    obtain ⟨n, hn, _⟩ := hb.aggregate
    exact Graph.lt_of_get? hn
  obtain ⟨m, hm, hrun⟩ := hl.nested.unnest_runs hl.all hl.once hlt hl.closed.inRange hl.inRange
  exact ⟨m.graph, m.stats, m.extracted, hm, hrun.unnested hl.inRange hl.items⟩

section
variable {u : SourceUnit} {typedefs : Table String Handle} {g g' : Graph}
  {L : List (Body × Handle)} {ex : List Handle} (hl : u.Left typedefs g L)
    (hn : SourceUnit.Unnested g g' ex)
include hl hn

theorem SourceUnit.Left.flat_item {h : Handle} (hh : h ∈ g.module.items) {n : Node}
    (hget : g.get? h = some n) (ha : n.isAggregate = true) : g'.Flat h := by
  cases n with
  | container kind c =>
    exact hn.flat h hh h (.inl ⟨rfl, kind, c, hget, hl.tagged h hh kind c hget⟩)
  | enumeration e =>
    exact fun k hi _ => Graph.not_inline_enumeration hget (hn.unnests.inline hi)
  | _ => cases ha

theorem SourceUnit.Left.tagged_item {h : Handle} (hh : h ∈ g'.module.items) {m : Node}
    (hm : g.get? h = some m) {kind : ContainerKind} {c : Container}
    (hc : g'.get? h = some (.container kind c)) : c.tag.isSome = true := by
  rcases (hn.items h).mp hh with hh | hh
  · obtain ⟨n', hn', hmn⟩ := hn.unnests.nodes h m hm
    rw [hc] at hn'
    cases hn'
    cases hmn with
    | same => exact hl.tagged h hh kind c hm
    | container _ tag _ => exact tag (hl.tagged h hh kind _ hm)
  · rcases hn.extracted h hh with hle | ⟨_, _, htag⟩
    · exact absurd (Graph.lt_of_get? hm) (Nat.not_lt.mpr hle.1)
    · exact htag _ hc

/-- Every body is flat in the end, and it is an item or the target of one. -/
theorem SourceUnit.Left.reached (n : Nat) : ∀ p ∈ L, L.length - (L.map Prod.snd).idxOf p.2 ≤ n →
    p.1.place ≠ .spliced → g.HasBody p.2 → g'.Flat p.2 ∧ (p.2 ∈ g'.module.items ∨
      ∃ x ∈ g'.module.items, ∃ d, g'.get? x = some (.typedef d) ∧ d.target = some p.2) := by
  induction n with
  | zero =>
    intro p hp hle
    have := List.idxOf_lt_length_of_mem (List.mem_map_of_mem (f := Prod.snd) hp)
    rw [List.length_map] at this
    omega
  | succ n ih =>
    intro p hp hle hs hb
    obtain ⟨m, hm, hmb⟩ := hb
    have ha : m.isAggregate = true := (Bool.and_eq_true_iff.mp hmb).1
    have hitem (hh : p.2 ∈ g.module.items) : g'.Flat p.2 ∧ (p.2 ∈ g'.module.items ∨
        ∃ x ∈ g'.module.items, ∃ d, g'.get? x = some (.typedef d) ∧ d.target = some p.2) :=
      ⟨hl.flat_item hn hh hm ha, .inl ((hn.items _).mpr (.inl hh))⟩
    have hat := hl.placed p hp
    unfold PlacedIn at hat
    cases hplace : p.1.place with
    | item =>
      rw [hplace] at hat
      exact hitem hat
    | nested =>
      rw [hplace] at hat
      exact hitem hat
    | spliced => exact absurd hplace hs
    | target =>
      rw [hplace] at hat
      obtain ⟨x, hx, d, hd, ht⟩ := hat
      refine ⟨?_, .inr ⟨x, (hn.items x).mpr (.inl hx), d, hn.unnests.typedef hd, ht⟩⟩
      cases m with
      | container kind c => exact hn.flat x hx p.2 (.inr ⟨d, kind, c, hd, ht, hm⟩)
      | enumeration e =>
        exact fun k hi _ => Graph.not_inline_enumeration hm (hn.unnests.inline hi)
      | _ => cases ha
    | member =>
      rw [hplace] at hat
      obtain ⟨q, hq, hqs, hi⟩ := hat
      have hrank : (L.map Prod.snd).idxOf p.2 < (L.map Prod.snd).idxOf q.2 :=
        hl.nested.ranked hl.all q.2 p.2 hi ⟨m, hm, hmb⟩
      have hlt := List.idxOf_lt_length_of_mem (List.mem_map_of_mem (f := Prod.snd) hq)
      rw [List.length_map] at hlt
      obtain ⟨hqflat, _⟩ := ih q hq (by omega) hqs hi.hasBody
      have hex : p.2 ∈ ex := hn.unnests.extracted hi ⟨m, hm, hmb⟩ hqflat
      refine ⟨?_, .inl ((hn.items _).mpr (.inr hex))⟩
      rcases hn.extracted _ hex with hle | ⟨_, hflat, _⟩
      · exact absurd (Graph.lt_of_get? hm) (Nat.not_lt.mpr hle.1)
      · exact hflat

theorem SourceUnit.Left.printed {p : Body × Handle} (hp : p ∈ L) (hs : p.1.place ≠ .spliced)
    (hne : p.1.names ≠ []) : Pxd.Printed g' g'.module.items p.2 := by
  obtain ⟨_, hbody⟩ := hl.nodes hp
  have hb := hbody.hasBody hne
  obtain ⟨m, hm, hmb⟩ := hb
  obtain ⟨n, hget, hnb⟩ := hn.unnests.hasBody.mpr ⟨m, hm, hmb⟩
  have ha : n.isAggregate = true := (Bool.and_eq_true_iff.mp hnb).1
  by_cases hitem : p.2 ∈ g'.module.items
  · refine .inl ⟨hitem, n, hget, ha, ?_⟩
    cases n with
    | container kind c => exact .inl (hl.tagged_item hn hitem hm hget)
    | enumeration e =>
      refine .inr ⟨e, rfl, fun hv => ?_⟩
      simp [Node.hasBody, Node.isAggregate, Node.isOpaque, hv] at hnb
    | _ => cases ha
  · obtain ⟨x, hx, d, hd, ht⟩ :=
      (hl.reached hn _ p hp (Nat.le_refl _) hs ⟨m, hm, hmb⟩).2.resolve_left hitem
    exact .inr ⟨hitem, x, hx, d, n, hd, ht, hget, ha⟩

end

/-! ## One block for each body -/

open Pxd

/-- The line declares a field as it was written: with its type, or with a typedef
of the type if that was defined on the spot. -/
def LineOf (typedefs : Table String Handle) (g : Graph) (d : Declarator)
    (written : String × TypeExpr) (line : String) : Prop :=
  ∃ type k : Handle, Denotes typedefs g written.2 k ∧
    (type = k ∨ written.2.isDefinition = true ∧
      ∃ t, d.graph.get? type = some (.typedef t) ∧ t.target = some k) ∧
    d.declare type written.1 = .ok line

/-- The block is headed by what declares the node of `h`, and has a line for each field or
enumerator of the body in order. A tag that was written is kept, where the node is not the
type of an inline field. -/
def Body.ShownBy (typedefs : Table String Handle) (g : Graph) (d : Declarator) (h : Handle)
    (block : Block) : Body → Prop
  | .container _ kind tag ms => ∃ (c : Container) (head : String) (lines : List String),
    d.graph.get? h = some (.container kind c) ∧
      (tag.isSome → (∀ k, ¬g.Inline k h) → c.tag = tag) ∧ d.Heads h head ∧
      block.code = [.line (head ++ ":"), .indented (lines.map .line)] ∧
      block.lines = (head ++ ":") :: lines.map deeper ∧
      List.Forall₂ (LineOf typedefs g d) (resultingFields ms) lines
  | .enumeration _ tag es => ∃ (e : Enumeration) (head : String),
    d.graph.get? h = some (.enumeration e) ∧
      (tag.isSome → (∀ k, ¬g.Inline k h) → e.tag = tag) ∧ d.Heads h head ∧
      block.code = [.line (head ++ ":"), .indented ((es.map (·.name)).map .line)] ∧
      block.lines = (head ++ ":") :: (es.map (·.name)).map deeper

theorem withBody_of_ne {head : String} {lines : List String} (h : lines ≠ []) :
    Block.withBody head lines = [.line (head ++ ":"), .indented (lines.map .line)] := by
  cases lines with
  | nil => exact absurd rfl h
  | cons line lines => rfl

theorem headed_of_ne {head : String} {lines : List String} (h : lines ≠ []) :
    headed head lines = (head ++ ":") :: lines.map deeper := if_neg h

theorem lines_of_fields {typedefs : Table String Handle} {g : Graph} {ex : List Handle}
    {d : Declarator} {written : List (String × TypeExpr)} {fs fs' : List Field}
    {lines : List (Field × String)} (hw : List.Forall₂ (FieldIs typedefs g) written fs)
    (hu : List.Forall₂ (Field.Unnests g d.graph ex) fs fs') (hs : ShowsFields d fs' lines) :
    List.Forall₂ (LineOf typedefs g d) written (lines.map (·.2)) := by
  induction hw generalizing fs' lines with
  | nil =>
    cases hu
    cases hs
    exact .nil
  | @cons w f written fs hf _ ih =>
    cases hu with
    | @cons _ f' _ _ hff hu =>
      cases hs with
      | @cons _ p _ _ hp hs =>
        refine .cons ⟨f'.type, f.type, hf.type, ?_, ?_⟩ (ih hu hs)
        · cases hff with
          | same => exact .inl rfl
          | moved inline _ node target => exact .inr ⟨hf.inline ▸ inline, _, node, target⟩
        · rw [← hf.name, ← hff.name]
          exact hp.2

theorem Graph.Unnests.tag_kept {g g' : Graph} {ex : List Handle} (hu : g.Unnests g' ex) {h : Handle}
    {n n' : Node} (hn : g.get? h = some n) (hn' : g'.get? h = some n') {tag : Option String}
    (htag : tag.isSome → n.tag? = tag) (hs : tag.isSome) (hi : ∀ k, ¬g.Inline k h) :
    n'.tag? = tag := by
  rcases hu.tags h n n' hn hn' with hsame | ⟨⟨k, hk⟩, _⟩
  · exact hsame.trans (htag hs)
  · exact absurd hk (hi k)

theorem Body.shownBy_of_block {typedefs : Table String Handle} {g : Graph} {d : Declarator}
    {ex : List Handle} {b : Body} {h : Handle} {block : Block} (hb : BodyAt typedefs g h b)
    (hne : b.names ≠ []) (hu : g.Unnests d.graph ex) (hsubject : block.subject? = some h)
    (htrue : block.Says d) : b.ShownBy typedefs g d h block := by
  cases htrue with
  | @container subject kind' c' head fields node heads shows lines =>
    cases hsubject
    cases b with
    | container place kind tag ms =>
      obtain ⟨c, hc, htag, hfields⟩ := hb
      have hkept := hu.tag_kept (n := .container kind c) hc node htag
      obtain ⟨n', hn', hcc⟩ := hu.nodes h _ hc
      rw [node] at hn'
      cases hn'
      obtain ⟨rfl, hlines⟩ : kind' = kind ∧
          List.Forall₂ (LineOf typedefs g d) (resultingFields ms) (fields.map (·.2)) := by
        have hself : List.Forall₂ (Field.Unnests g d.graph ex) c'.fields c'.fields :=
          List.forall₂_same.mpr fun f _ => .same f
        cases hcc with
        | same => exact ⟨rfl, lines_of_fields hfields hself shows⟩
        | container _ _ unnests => exact ⟨rfl, lines_of_fields hfields unnests shows⟩
      have hcode : fields.map (·.2) ≠ [] := by
        intro he
        rw [he] at hlines
        exact hne (List.map_eq_nil_iff.mpr (List.forall₂_nil_right_iff.mp hlines))
      exact ⟨c', head, _, node, hkept, heads, withBody_of_ne hcode,
        lines.trans (headed_of_ne hcode), hlines⟩
    | enumeration place tag es =>
      obtain ⟨e, he, _⟩ := hb
      obtain ⟨n', hn', hcc⟩ := hu.nodes h _ he
      rw [node] at hn'
      cases hn'
      cases hcc
  | @enumeration subject e' head node heads lines =>
    cases hsubject
    cases b with
    | container place kind tag ms =>
      obtain ⟨c, hc, _⟩ := hb
      obtain ⟨n', hn', hcc⟩ := hu.nodes h _ hc
      rw [node] at hn'
      cases hn'
      cases hcc
    | enumeration place tag es =>
      obtain ⟨e, he, htag, hvalues⟩ := hb
      have hkept := hu.tag_kept (n := .enumeration e) he node htag
      obtain ⟨n', hn', hee⟩ := hu.nodes h _ he
      rw [node] at hn'
      cases hn'
      have hnames : e'.values.map (·.name) = es.map (·.name) := by
        cases hee with
        | same => exact hvalues
        | enumeration _ _ values => exact values ▸ hvalues
      have hcode : e'.values.map (·.name) ≠ [] := hnames ▸ hne
      exact ⟨e', head, node, hkept, heads, hnames ▸ withBody_of_ne hcode,
        hnames ▸ lines.trans (headed_of_ne hcode)⟩
  | _ => cases hsubject

/-- In a unit with distinct names, each body that has fields or enumerators of its
own is the body of exactly one block: the handles `hs` of the bodies differ, and
the blocks about any of them are one. The types of its fields are those that the
typedefs which are declared by then name. -/
theorem SourceUnit.bodies_printed {u : SourceUnit} (hu : u.Distinct) {g : Graph}
    (hg : u.translate = .ok g) :
    ∃ t g' stats ps hs, Translator.start.feed u = (.ok ⟨⟩, t) ∧ t.graph = g ∧
      g.unnest = .ok (g', stats) ∧ Prints g' ⟨none⟩ ps ∧ hs.Nodup ∧
      u.shown.map Prod.fst = u.bodies.filter Body.isShown ∧
      List.Forall₂ (fun q h => BodyAt (t.typedefs.only q.2) g h q.1 ∧
        ∃ p, ps.filter (·.2.subject? = some h) = [p] ∧
          q.1.ShownBy (t.typedefs.only q.2) g ⟨g', p.1⟩ h p.2) u.shown hs := by
  obtain ⟨t, L, hrun, hgraph, hl⟩ := hu.left hg
  obtain ⟨g', stats, ex, hunnest, hn⟩ := hl.unnest
  obtain ⟨ps, hps, honce, hprinted⟩ :=
    blocks_bodies (hn.unnests.closed hl.closed) (hn.inRange hl.inRange) hn.once
  refine ⟨t, g', stats, ps, (L.filter (·.1.isShown)).map Prod.snd, hrun, hgraph, hunnest, hps,
    hl.once.sublist (List.filter_sublist.map _), ?_, ?_⟩
  · rw [SourceUnit.shown, SourceUnit.bodies, ← bodiesWith_fst [], List.filter_map]
    rfl
  have hshown := List.rel_filter (p := (·.1.isShown)) (q := (·.1.isShown))
    (fun q p hb => iff_of_eq (congrArg (Body.isShown · = true) hb.1.symm)) hl.bodies
  have hmem := (List.forall₂_and_left ..).mpr ⟨fun p hp => List.mem_filter.mp hp, hshown.flip⟩
  rw [List.forall₂_map_right_iff]
  refine hmem.flip.imp ?_
  rintro ⟨_, names⟩ ⟨b, h⟩ ⟨⟨hp, hshown⟩, rfl, hbody⟩
  obtain ⟨hs, hne⟩ : b.place ≠ .spliced ∧ b.names ≠ [] := by simpa [Body.isShown] using hshown
  rw [List.filterMap_map] at honce
  obtain ⟨p, hmem, hsubject, hone⟩ := exists_of_subject honce
    (List.filterMap_map .. ▸ (hprinted h).mpr (hl.printed hn hp hs hne))
  exact ⟨hbody, p, hone,
    Body.shownBy_of_block hbody hne hn.unnests hsubject (hps.truthful p hmem)⟩

namespace Sample

def shapeName : TypedefDecl := ⟨"shape_t", .container .struct (.reference "shape"), none⟩

def color : TypedefDecl :=
  ⟨"color_t", .enumeration (.body none [⟨"RED", none, none⟩, ⟨"GREEN", none, none⟩]), none⟩

/-- Defines `struct shape { struct { int x; } corner; union link { int y; } *next; }`
after `typedef struct shape shape_t`. -/
def layers : SourceUnit := ⟨"layers.h", [.typedef shapeName, .typedef color,
  .container .struct (.body (some "shape") [
    .named "corner" (.container .struct (.body none [.named "x" (.word "int")])),
    .named "next" (.pointer
      (.container .union (.body (some "link") [.named "y" (.word "int")])))])]⟩

theorem layers_distinct : layers.Distinct where
  tags := by decide
  typedefs := by decide
  functions := by decide
  tagged := by
    intro kind spec h
    rcases List.mem_cons.mp h with h | h
    · cases h
    · rcases List.mem_cons.mp h with h | h
      · cases h
      · cases List.mem_singleton.mp h
        rfl

theorem layers_accepted : ∃ g, layers.translate = .ok g := by
  have h : layers.translate.toOption.isSome = true := by decide +kernel
  cases hg : layers.translate with
  | error _ =>
    rw [hg] at h
    cases h
  | ok g => exact ⟨g, rfl⟩

end Sample

theorem bodies_printed_layers : Sample.layers.Distinct ∧ ∃ g, Sample.layers.translate = .ok g ∧
    ∃ t g' stats ps hs, Translator.start.feed Sample.layers = (.ok ⟨⟩, t) ∧ t.graph = g ∧
      g.unnest = .ok (g', stats) ∧ Prints g' ⟨none⟩ ps ∧ hs.Nodup ∧
      Sample.layers.shown.map Prod.fst = Sample.layers.bodies.filter Body.isShown ∧
      List.Forall₂ (fun q h => BodyAt (t.typedefs.only q.2) g h q.1 ∧
        ∃ p, ps.filter (·.2.subject? = some h) = [p] ∧
          q.1.ShownBy (t.typedefs.only q.2) g ⟨g', p.1⟩ h p.2) Sample.layers.shown hs :=
  have ⟨g, hg⟩ := Sample.layers_accepted
  ⟨Sample.layers_distinct, g, hg, SourceUnit.bodies_printed Sample.layers_distinct hg⟩

end CythonDecls
