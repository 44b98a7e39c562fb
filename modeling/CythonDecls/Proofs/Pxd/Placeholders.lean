import CythonDecls.Proofs.Pxd.Pages
import CythonDecls.Proofs.Pxd.TypedefOrder
import CythonDecls.Proofs.Translation.UntaggedItems
import CythonDecls.Proofs.Unnest.Ends
import CythonDecls.Proofs.Unnest.Names
import CythonDecls.Proofs.Unnest.Unnested

/-!
# Aggregates are printed by names

What has no tag when it is printed has the name of the typedef that declared
it. Unnesting gives a tag to all that is defined in place with a body, and so
one case is left: a member whose type has neither a tag nor anything in it is
printed as what messages call a type without a name.
-/

namespace CythonDecls

namespace Graph

/-- What is printed of a graph with an aggregate that has no tag declares it, unless that
is the type of a field, and then it is empty and `E` holds. -/
structure Presentable (g : Graph) (E : Prop) : Prop where
  made : g.TaggedParts
  fields : ∀ item ∈ g.module.items, ∀ h, g.Root item h → ∀ kind c,
    g.get? h = some (.container kind c) → ∀ f ∈ c.fields, g.Untagged f.type →
      ¬g.HasBody f.type ∧ E
  targets : ∀ h k, g.Target h k → g.Untagged k → k ∉ g.module.items

section
variable {g g' : Graph} {E : Prop} {ex : List Handle} {h k : Handle}

theorem Unnests.untagged (hu : g.Unnests g' ex) (hk : g'.Untagged k) : g.Untagged k := by
  obtain ⟨n', hn', ha, ht⟩ := hk
  by_cases hlt : k.index < g.size
  · obtain ⟨n, hn⟩ := get?_of_lt hlt
    obtain ⟨m, hm, hnm⟩ := hu.nodes k n hn
    rw [hn'] at hm
    cases hm
    refine ⟨n, hn, by cases hnm <;> exact ha, ?_⟩
    by_contra hsome
    have := hnm.tagged (Option.isSome_iff_ne_none.mpr hsome)
    simp [ht] at this
  · obtain ⟨_, _, _, rfl, _⟩ := hu.fresh k n' hn' (Nat.not_lt.mp hlt)
    cases ha

theorem Unnests.taggedParts (hu : g.Unnests g' ex) (ht : g.TaggedParts) : g'.TaggedParts := by
  intro h n' hn' hc htd k hk huk
  by_cases hlt : h.index < g.size
  · obtain ⟨n, hn⟩ := get?_of_lt hlt
    obtain ⟨m, hm, hnm⟩ := hu.nodes h n hn
    rw [hn'] at hm
    cases hm
    cases hnm with
    | same => exact ht h n' hn hc htd k hk (hu.untagged huk)
    | container => cases hc
    | enumeration => cases hk
  · obtain ⟨_, _, _, rfl, _⟩ := hu.fresh h n' hn' (Nat.not_lt.mp hlt)
    cases htd

theorem not_untagged_of_extracted (hu : g.Unnests g' ex) (hk : Unnesting.Extracted g.size g' k) :
    ¬g'.Untagged k := by
  rintro ⟨n, hn, ha, ht⟩
  rcases hk with ⟨hnew, _⟩ | ⟨_, _, htag⟩
  · obtain ⟨_, _, _, rfl, _⟩ := hu.fresh k n hn hnew
    cases ha
  · have := htag n hn
    simp [ht] at this

/-- Fields of an aggregate without a tag stay as they are. -/
theorem Unnests.introduces (hu : g.Unnests g' ex) (ht : g.Tidy E) {kind : ContainerKind}
    {c' : Container} (hc' : g'.get? h = some (.container kind c')) {f' : Field}
    (hf' : f' ∈ c'.fields) (huk : g'.Untagged f'.type) :
    f'.inline = true ∧ (g.HasBody f'.type ∨ E) := by
  by_cases hlt : h.index < g.size
  · obtain ⟨n, hn⟩ := get?_of_lt hlt
    obtain ⟨m, hm, hnm⟩ := hu.nodes h n hn
    rw [hc'] at hm
    cases hm
    cases hnm with
    | same => exact ht.fields h kind c' hn f' hf' (hu.untagged huk)
    | @container _ c _ _ _ fields =>
      obtain ⟨f, hf, hff⟩ := mem_right_of_forall₂ fields.flip f' hf'
      cases hff with
      | same => exact ht.fields h kind c hn f' hf (hu.untagged huk)
      | moved _ _ node => exact absurd huk (not_untagged node rfl)
  · obtain ⟨_, _, _, he, _⟩ := hu.fresh h _ hc' (Nat.not_lt.mp hlt)
    cases he

end

theorem Tidy.presentable {g : Graph} {E : Prop} (ht : g.Tidy E)
    (htargets : ∀ h k, g.Target h k → g.Untagged k → k ∉ g.module.items) (hg : g.InRange)
    (hi : ∀ h ∈ g.module.items, h.index < g.size) {m : Unnesting}
    (hrun : Unnesting.Run ⟨g, [], ⟨0, 0⟩⟩ g.module.items m) : m.graph.Presentable E := by
  have hu : g.Unnests m.graph m.extracted := hrun.unnests.2
  have hex : ∀ k ∈ m.extracted, Unnesting.Extracted g.size m.graph k :=
    hrun.extracted (Nat.le_refl _) fun _ hk => nomatch hk
  have hitems := (hrun.items (fun _ hk => hk) fun _ hk => nomatch hk).1
  constructor
  case made => exact hu.taggedParts ht.made
  case fields =>
    intro item hitem h hroot kind c hc f hf huk
    obtain ⟨hinline, hor⟩ := hu.introduces ht hc hf huk
    have hno : ¬m.graph.HasBody f.type :=
      hrun.rootsFlat hg hi item hitem h hroot f.type ⟨kind, c, hc, f, hf, hinline, rfl⟩
    exact ⟨hno, hor.resolve_left fun hb => hno (hu.hasBody.mpr hb)⟩
  case targets =>
    intro h k hk huk hmem
    have hold : k ∈ g.module.items :=
      ((hitems k).mp hmem).resolve_right fun hin => not_untagged_of_extracted hu (hex k hin) huk
    obtain ⟨d, hd, htarget⟩ := hk
    by_cases hlt : h.index < g.size
    · exact htargets h k ⟨d, hu.old_typedef hlt hd, htarget⟩ (hu.untagged huk) hold
    · obtain ⟨_, _, target, he, htarget', hin, _⟩ := hu.fresh h _ hd (Nat.not_lt.mp hlt)
      cases he
      rw [htarget] at htarget'
      cases htarget'
      exact not_untagged_of_extracted hu (hex k hin) huk

end Graph

namespace Pxd

/-- The aggregates that the block prints have tags, or names that blocks before it declare
them under. The type of a field may have neither if it is empty, and then `E` holds. -/
def Block.Named (d : Declarator) (E : Prop) (before : List Block) (b : Block) : Prop :=
  ∀ type ∈ b.types, ∀ k n, Mentions d.graph type k → d.graph.get? k = some n →
    (∃ tag, n.tag? = some tag ∧ d.typeName k = .ok tag) ∨
      (∃ name, d.typeName k = .ok name ∧ ∃ b' ∈ before, b'.Entitles d.graph k name) ∨
        (∃ h head lines, b = .container h head lines) ∧ k = type ∧ n.isOpaque = true ∧ E

section
variable {g : Graph} {E : Prop} {r r₁ r' : Rendering} {h k : Handle}

theorem Mentions.isAggregate {n : Node} (hm : Mentions g h k) (hn : g.get? k = some n) :
    n.isAggregate = true := by
  induction hm with
  | aggregate node aggregate =>
    rw [hn] at node
    cases node
    exact aggregate
  | part _ _ _ ih => exact ih hn

theorem Mentions.tagged_or (hg : g.TaggedParts) (hm : Mentions g h k) {n : Node}
    (hn : g.get? k = some n) : n.tag?.isSome = true ∨ k = h ∧ g.Untagged k := by
  have ha := hm.isAggregate hn
  cases ht : n.tag? with
  | some tag => exact .inl rfl
  | none =>
    have hu : g.Untagged k := ⟨n, hn, ha, ht⟩
    refine .inr ⟨?_, hu⟩
    induction hm with
    | aggregate => rfl
    | @part h j k m node part rest ih =>
      rw [ih hn hu] at hu
      refine absurd hu (hg h m node ?_ ?_ j (Node.mem_children_of_mem_parts part))
      · cases m <;> first | rfl | cases part
      · cases m <;> first | rfl | cases part

theorem Block.named_of_types_nil {b : Block} (hb : b.types = []) (d : Declarator)
    (before : List Block) : b.Named d E before := by
  intro type htype
  rw [hb] at htype
  cases htype

/-- What was declared has a name. -/
def Defines (r : Rendering) : Prop := ∀ k ∈ r.defined, (r.names.find? k).isSome = true

theorem Defines.define (hd : Defines r) (h : Handle) (name : String) :
    Defines (r.define h name) := by
  intro k hk
  show ((r.names.insert h name).find? k).isSome = true
  rw [Table.find?_insert]
  split
  · rfl
  · rename_i hne
    exact hd k ((List.mem_cons.mp hk).resolve_left hne)

theorem Defines.forwards (hd : Defines r) {hs : List Handle} (hf : Forwards g h hs r r₁) :
    Defines r₁ := fun k hk => hf.kept k (hd k (hf.defined ▸ hk))

theorem Defines.push (hd : Defines r) (b : Block) : Defines (r.push b) := hd

theorem Defines.synonym (hd : Defines r) (h k : Handle) (declared name : String) :
    Defines (r.synonym h k declared name) := by
  unfold Rendering.synonym
  split <;> exact hd

theorem Renders.defines (hr : Renders g r h r') (hd : Defines r) : Defines r' := by
  cases hr with
  | silent => exact hd
  | container _ _ _ forwards _ => exact ((hd.define _ _).forwards forwards).push _
  | enumeration => exact (hd.define _ _).push _
  | values => exact hd.push _
  | ownContainer _ _ _ forwards _ =>
    exact (((hd.define _ _).forwards forwards).push _).synonym _ _ _ _
  | ownEnumeration => exact ((hd.define _ _).push _).synonym _ _ _ _
  | named _ _ _ _ _ _ forwards _ => exact hd.forwards forwards
  | typedef _ _ _ _ _ forwards _ => exact (hd.forwards forwards).push _
  | function _ _ forwards _ => exact (hd.forwards forwards).push _
  | object _ _ forwards _ => exact (hd.forwards forwards).push _

theorem Titled.entitled (ht : Titled g none r) (hd : Defines r) {n : Node}
    (hn : g.get? k = some n) (htag : n.tag? = none) (hk : k ∈ r.defined) :
    ∃ name, (r.declarator g).typeName k = .ok name ∧ ∃ b ∈ r.blocks, b.Entitles g k name := by
  obtain ⟨name, hname⟩ := Option.isSome_iff_exists.mp (hd k hk)
  have hfind : (r.declarator g).names.find? k = some name := hname
  refine ⟨name, ?_, ht k name hname nofun n hn htag⟩
  simp only [Declarator.typeName, hfind]

theorem Backs.tagged {owner : Option Handle} (hb : Backs g owner r) {n : Node}
    (hn : g.get? k = some n) (ht : n.tag?.isSome = true) :
    ∃ tag, n.tag? = some tag ∧ (r.declarator g).typeName k = .ok tag := by
  obtain ⟨tag, ht⟩ := Option.isSome_iff_exists.mp ht
  exact ⟨tag, ht, hb.typeName hn ht⟩

section
variable (hp : g.Presentable E)
include hp

theorem named_container {item : Handle} (hitem : item ∈ g.module.items) (hroot : g.Root item h)
    {kind : ContainerKind} {c : Container} (node : g.get? h = some (.container kind c))
    {owner : Option Handle} (hb : Backs g owner r) {lines : List (Field × String)}
    (shows : ShowsFields (r.declarator g) c.fields lines) (head : String) (before : List Block) :
    (Block.container h head lines).Named (r.declarator g) E before := by
  intro type htype k n hk hn
  have htype : type ∈ c.fields.map (·.type) := shows.types ▸ htype
  obtain ⟨f, hf, rfl⟩ := List.mem_map.mp htype
  rcases hk.tagged_or hp.made hn with htag | ⟨hkf, hu⟩
  · exact .inl (hb.tagged hn htag)
  · obtain ⟨hbody, hE⟩ := hp.fields item hitem h hroot kind c node f hf (hkf ▸ hu)
    refine .inr (.inr ⟨⟨h, head, lines, rfl⟩, hkf, ?_, hE⟩)
    by_contra hopaque
    exact hbody ⟨n, hkf ▸ hn, by simp [Node.hasBody, Mentions.isAggregate hk hn, hopaque]⟩

theorem Renders.blocks_named (hr : Renders g r h r') (hh : h ∈ g.module.items) (hb : Backs g none r)
    (ht : Titled g none r) (hd : Defines r) :
    Extends (fun before b => b.Named (r'.declarator g) E before) r r' := by
  have hforward (names : Table Handle String) (before : List Block) (b : Block)
      (hb : b.IsForward g) : b.Named ⟨g, names⟩ E before :=
    Block.named_of_types_nil hb.types _ _
  -- a second name is that of a target with a tag
  have hsynonym {t : Typedef} {k : Handle} {n : Node} (hn : g.get? k = some n)
      (ha : n.isAggregate = true) (r : Rendering) (hb : Backs g none r) (before : List Block)
      (hne : declaredName n t ≠ t.name) :
      (Block.synonym h k (declaredName n t) t.name).Named (r.declarator g) E before := by
    intro type htype j m hj hm
    rw [List.mem_singleton.mp htype] at hj
    cases hj.eq_of_aggregate hn ha
    cases hn.symm.trans hm
    refine .inl (hb.tagged hn ?_)
    by_contra hnone
    simp_all [declaredName]
  cases hr with
  | silent silent => exact .refl _ r
  | container node tagged mentions forwards shows =>
    have hb₁ := (hb.define (tag_eq_of_tagged node tagged)).forwards forwards
    refine ((Extends.define r h _).forwards forwards (hforward _)).push ?_
    exact named_container hp hh (.inl ⟨rfl, _, _, node, by rw [tagged]; rfl⟩) node hb₁ shows _ _
  | enumeration => exact (Extends.define r h _).push (Block.named_of_types_nil rfl _ _)
  | values => exact (Extends.refl _ r).push (Block.named_of_types_nil rfl _ _)
  | @ownContainer t k kind c hs r₁ lines node owns mentions forwards shows =>
    have hb₁ := (hb.define (tag_eq_declaredName owns.node t)).forwards forwards
    have hpush := hb₁.push
      (b := .container k (targetHead (.container kind c) t) lines) fun _ hk => hk ▸ rfl
    rw [Rendering.declarator, Rendering.names_synonym]
    refine Extends.synonym ?_ (hsynonym owns.node rfl _ hpush _)
    refine ((Extends.define r _ _).forwards forwards (hforward _)).push ?_
    exact named_container hp hh (.inr ⟨t, kind, c, node, owns.target, owns.node⟩) owns.node hb₁
      shows _ _
  | @ownEnumeration t k e node owns =>
    have hpush := (hb.define (tag_eq_declaredName owns.node t)).push
      (b := .enumeration k (targetHead (.enumeration e) t) e.values) fun _ hk => hk ▸ rfl
    rw [Rendering.declarator, Rendering.names_synonym]
    refine Extends.synonym ?_ (hsynonym owns.node rfl _ hpush _)
    exact (Extends.define r _ _).push (Block.named_of_types_nil rfl _ _)
  | named node target inner aggregate declared mentions forwards same =>
    exact (Extends.refl _ r).forwards forwards (hforward _)
  | @typedef t k n hs r₁ text node target inner declared mentions forwards shows =>
    refine ((Extends.refl _ r).forwards forwards (hforward _)).push ?_
    intro type htype j m hj hm
    rw [List.mem_singleton.mp htype] at hj
    rcases hj.tagged_or hp.made hm with htag | ⟨rfl, m', hm', ha, htag⟩
    · exact .inl ((hb.forwards forwards).tagged hm htag)
    -- the typedef would declare it, had it not been declared before
    have hdefined : j ∈ r.defined := by
      by_contra hnew
      have hitem := hp.targets h j ⟨t, node, target⟩ ⟨m', hm', ha, htag⟩
      exact declared ⟨target, inner, hj.isAggregate inner, hitem, hnew⟩
    exact .inr (.inl ((ht.forwards forwards).entitled (hd.forwards forwards) hm' htag
      (forwards.defined ▸ hdefined)))
  | @function f hs r₁ text node mentions forwards shows =>
    refine ((Extends.refl _ r).forwards forwards (hforward _)).push ?_
    intro type htype j m hj hm
    rw [List.mem_singleton.mp htype] at hj
    rcases hj.tagged_or hp.made hm with htag | ⟨rfl, hu⟩
    · exact .inl ((hb.forwards forwards).tagged hm htag)
    · exact absurd hu (Graph.not_untagged node rfl)
  | @object v hs r₁ text node mentions forwards shows =>
    refine ((Extends.refl _ r).forwards forwards (hforward _)).push ?_
    intro type htype j m hj hm
    rw [List.mem_singleton.mp htype] at hj
    rcases hj.tagged_or hp.made hm with htag | ⟨rfl, hu⟩
    · exact .inl ((hb.forwards forwards).tagged hm htag)
    · exact absurd hu (hp.made h _ node rfl rfl v.type List.mem_cons_self)

end

end

theorem prints_named {g : Graph} {E : Prop} (hg : g.WellFormed) (hp : g.Presentable E)
    {filter : Filter} {ps : List (Table Handle String × Block)} (hps : Prints g filter ps) :
    ∀ before p behind, ps = before ++ p :: behind → p.2.Named ⟨g, p.1⟩ E (before.map (·.2)) := by
  obtain ⟨ps', r, hps', hall⟩ := prints_run hg.closed (fun _ => hg.item_lt) filter
  obtain rfl : ps' = ps := Except.ok.inj (hps'.named.symm.trans hps.named)
  refine hall.blocks_follow (I := fun _ r => Backs g none r ∧ Titled g none r ∧ Defines r)
    (P := fun d before b => b.Named d E before) ⟨backs_start g, titled_start g, nofun⟩ ?_
  intro done h rest hitems r r₁ ⟨hb, ht, hd⟩ hrenders
  have hmem : h ∈ g.module.items.filter (filter.keeps g) := by simp [hitems]
  have hh := (List.mem_filter.mp hmem).1
  exact ⟨⟨hrenders.backs hb, hrenders.titled hb ht, hrenders.defines hd⟩,
    hrenders.blocks_named hp hh hb ht hd⟩

/-- The output of a unit in which every struct, union or enum that is mentioned has a tag or a
body has names for all aggregates that it prints, but for members whose types have neither a
tag nor anything in them. -/
theorem aggregates_named {u : SourceUnit} {header : String} {options : Options} {o : Output}
    (ho : generate u header options = .ok o) (hid : u.identified = true) :
    ∃ g g' ps, u.translate = .ok g ∧ o.Shows header options g g' ps ∧
      ∀ before p behind, ps = before ++ p :: behind →
        p.2.Named ⟨g', p.1⟩ (∃ w ∈ u.bodies, w.Blank) (before.map (·.2)) := by
  obtain ⟨g, g', hg, hwf, hwf', ps, hshows⟩ := generate_shows ho
  obtain ⟨m, hrun, rfl, _⟩ :=
    Unnesting.unnest_ends hwf.closed.inRange (fun _ => hwf.item_lt) hshows.unnest
  obtain ⟨htidy, htargets⟩ := SourceUnit.tidied hg hid
  have hp := htidy.presentable htargets hwf.closed.inRange (fun _ => hwf.item_lt) hrun
  exact ⟨g, m.graph, ps, hg, hshows, prints_named hwf' hp hshows.prints⟩

namespace Sample

def pointDefinition : TypedefDecl :=
  ⟨"point", .container .struct (.body none [.named "x" (.word "int")]), none⟩

/-- `typedef struct { int x; } point;`, then `struct shape` with the three members
`struct { int a; } center;`, `struct { int b; } *link;` and
`union { struct { int c; } inner; };`. -/
def shapes : SourceUnit := ⟨"shapes.h", [.typedef pointDefinition, .container .struct
  (.body (some "shape")
    [.named "center" (.container .struct (.body none [.named "a" (.word "int")])),
     .named "link" (.pointer (.container .struct (.body none [.named "b" (.word "int")]))),
     .unnamed (.container .union (.body none
       [.named "inner" (.container .struct (.body none [.named "c" (.word "int")]))]))])]⟩

/-- `struct A { struct {} x; int y; };` -/
def emptyMember : SourceUnit := ⟨"empty.h", [.container .struct (.body (some "A")
  [.named "x" (.container .struct (.body none [])), .named "y" (.word "int")])]⟩

end Sample

theorem aggregates_named_shapes : Sample.shapes.identified = true ∧
    ∃ o, generate Sample.shapes "shapes.h" .default = .ok o ∧
    ∃ g g' ps, Sample.shapes.translate = .ok g ∧ o.Shows "shapes.h" .default g g' ps ∧
      ∀ before p behind, ps = before ++ p :: behind →
        p.2.Named ⟨g', p.1⟩ (∃ w ∈ Sample.shapes.bodies, w.Blank) (before.map (·.2)) := by
  have hid : Sample.shapes.identified = true := by decide
  have h : (generate Sample.shapes "shapes.h" .default).toOption.isSome = true := by
    decide +kernel
  obtain ⟨o, ho⟩ := Option.isSome_iff_exists.mp h
  have ho := Graph.eq_ok_of_mem_toOption ho
  exact ⟨hid, o, ho, aggregates_named ho hid⟩

/-- The struct of the member `x` is not unnested, for there is nothing in it, and no other
way gives it a name. -/
theorem emptyMember_not_named : Sample.emptyMember.identified = true ∧
    ∃ o g g' ps, generate Sample.emptyMember "empty.h" .default = .ok o ∧
      "        <anonymous struct> x" ∈ o.lines ∧ Sample.emptyMember.translate = .ok g ∧
      o.Shows "empty.h" .default g g' ps ∧
      ¬∀ before p behind, ps = before ++ p :: behind →
        p.2.Named ⟨g', p.1⟩ False (before.map (·.2)) := by
  have hrun : ∃ o ∈ (generate Sample.emptyMember "empty.h" .default).toOption,
      "        <anonymous struct> x" ∈ o.lines := by decide +kernel
  have hfirst : ∃ g ∈ Sample.emptyMember.translate.toOption, ∃ r ∈ g.unnest.toOption,
      ∃ ps ∈ (Rendering.named r.1 ⟨none⟩ .start r.1.module.items).toOption, ∃ p ∈ ps.head?,
        ∃ type ∈ p.2.types, ∃ n ∈ r.1.get? type, n.isAggregate = true ∧ n.tag? = none := by
    decide +kernel
  obtain ⟨o, ho, hline⟩ := hrun
  have ho := Graph.eq_ok_of_mem_toOption ho
  obtain ⟨g, g', hg, _, _, ps, hshows⟩ := generate_shows ho
  refine ⟨by decide, o, g, g', ps, ho, hline, hg, hshows, fun hall => ?_⟩
  obtain ⟨_, hg₁, r, hr, ps₁, hps₁, p, hp, type, htype, n, hn, haggregate, htag⟩ := hfirst
  rw [hg] at hg₁
  cases hg₁
  obtain ⟨rfl, rfl⟩ := hshows.unique hr hps₁
  have hnamed := hall [] p ps₁.tail (List.cons_head?_tail hp).symm type htype type n
    (.aggregate hn haggregate) hn
  rcases hnamed with ⟨tag, ht, _⟩ | ⟨_, _, _, hb, _⟩ | ⟨_, _, _, habsurd⟩
  · rw [htag] at ht
    cases ht
  · cases hb
  · exact habsurd

end Pxd

end CythonDecls
