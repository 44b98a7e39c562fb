import CythonDecls.Proofs.Pxd.Introduced
import CythonDecls.Proofs.Unnest.Order

/-!
# Typedefs come before their uses

An item that has the typedefs in front that are printed with it is printed
behind the blocks that these typedefs became. A typedef becomes a block of its
own, a second name of what it declares, or nothing, where a block before it
gave its name to its target already.
-/

namespace CythonDecls.Pxd

namespace Block

/-- The typedef that a block has a line for. -/
def typedef? : Block → Option Handle
  | typedef subject .. => some subject
  | synonym subject .. => some subject
  | _ => none

/-- The block declares the aggregate `k`, which has no tag, under the name of a typedef. -/
def Entitles (g : Graph) (k : Handle) (name : String) (b : Block) : Prop :=
  ∃ n body, g.get? k = some n ∧ n.tag? = none ∧ b.subject? = some k ∧
    b.lines = headed s!"ctypedef {keyword n} {name}" body

/-- The block prints the name of the typedef `j` as one that it introduces: in a line of
the typedef itself, in one for the tag of its target, or with the target, which has this
name for its tag or is declared by it. -/
inductive IntroducesTypedef (d : Declarator) (j : Handle) (b : Block) : Prop where
  | itself {t : Typedef} {k : Handle} {text : String} (subject : b.typedef? = some j)
      (node : d.graph.get? j = some (.typedef t)) (target : t.target = some k)
      (declares : d.declare k t.name = .ok text)
      (lines : b.lines = ["ctypedef " ++ text])
  | second {t : Typedef} {k : Handle} {n : Node} {tag : String} (subject : b.typedef? = some j)
      (node : d.graph.get? j = some (.typedef t)) (target : t.target = some k)
      (inner : d.graph.get? k = some n) (tagged : n.tag? = some tag)
      (lines : b.lines = [s!"ctypedef {tag} {t.name}"])
  | tagged {t : Typedef} {k : Handle} {n : Node} (node : d.graph.get? j = some (.typedef t))
      (target : t.target = some k) (inner : d.graph.get? k = some n)
      (tagged : n.tag? = some t.name) (introduces : b.Introduces d.graph k)
  | titled {t : Typedef} {k : Handle} (node : d.graph.get? j = some (.typedef t))
      (target : t.target = some k) (entitles : b.Entitles d.graph k t.name)

/-- Every typedef that the block prints is printed by its name, and is introduced by a
block of `before`. -/
def TypedefsBacked (d : Declarator) (before : List (Table Handle String × Block)) (b : Block) :
    Prop :=
  ∀ type ∈ b.types, ∀ j t, d.graph.Spells type j → d.graph.get? j = some (.typedef t) →
    d.typeName j = .ok t.name ∧ ∃ p ∈ before, p.2.IntroducesTypedef ⟨d.graph, p.1⟩ j

/-- The block is that of the typedef `j`, or declares or introduces its target by its name. -/
def Names (g : Graph) (j : Handle) (b : Block) : Prop :=
  b.typedef? = some j ∨ ∃ t k, g.get? j = some (.typedef t) ∧ t.target = some k ∧
    ((b.IsAbout k ∧ ∃ n, g.get? k = some n ∧ n.tag? = some t.name) ∨ b.Entitles g k t.name)

theorem Says.introducesTypedef {d : Declarator} {b : Block} (hb : b.Says d) {j : Handle}
    (hnames : b.Names d.graph j) : b.IntroducesTypedef d j := by
  rcases hnames with hj | ⟨t, k, node, target, ⟨habout, n, inner, tagged⟩ | entitles⟩
  · cases hb with
    | synonym node target inner tagged lines =>
      cases hj
      exact .second rfl node target inner tagged lines
    | typedef node target declares lines =>
      cases hj
      exact .itself rfl node target declares lines
    | _ => cases hj
  · exact .tagged node target inner tagged (hb.introduces habout inner tagged)
  · exact .titled node target entitles

end Block

section
variable {g : Graph} {owner : Option Handle} {done : List Handle} {r r₁ r' : Rendering}
  {h k : Handle}

/-! ## Names of aggregates without a tag -/

/-- Where the block of `owner` is still to come, the aggregates without a tag have the names
that blocks gave them. -/
def Titled (g : Graph) (owner : Option Handle) (r : Rendering) : Prop :=
  ∀ k name, r.names.find? k = some name → owner ≠ some k → ∀ n, g.get? k = some n →
    n.tag? = none → ∃ b ∈ r.blocks, b.Entitles g k name

theorem titled_start (g : Graph) : Titled g none .start := fun _ _ hn => nomatch hn

theorem Titled.define (ht : Titled g none r) (k : Handle) (name : String) :
    Titled g (some k) (r.define k name) := by
  intro j other hj hne n hn htag
  have hfind : (r.names.insert k name).find? j = some other := hj
  have hjk : j ≠ k := fun he => hne (congrArg some he.symm)
  rw [Table.find?_insert, if_neg hjk] at hfind
  exact ht j other hfind (Option.some_ne_none j).symm n hn htag

theorem Titled.forwards (ht : Titled g owner r) {hs : List Handle} (hf : Forwards g h hs r r₁) :
    Titled g owner r₁ := by
  intro k name hk hne n hn htag
  rcases hf.names k name hk with hk | ⟨m, hm, hmt, _⟩
  · obtain ⟨b, hb, he⟩ := ht k name hk hne n hn htag
    obtain ⟨bs, hbs, _⟩ := hf.blocks
    exact ⟨b, hbs ▸ List.mem_append_left _ hb, he⟩
  · -- only tags are introduced
    rw [hn] at hm
    cases hm
    rw [htag] at hmt
    cases hmt

theorem Titled.push (ht : Titled g owner r) {b : Block}
    (hown : ∀ k, owner = some k → ∀ name, r.names.find? k = some name → ∀ n, g.get? k = some n →
      n.tag? = none → b.Entitles g k name) : Titled g none (r.push b) := by
  intro k name hk _ n hn htag
  by_cases ho : owner = some k
  · exact ⟨b, List.mem_append_right _ (List.mem_singleton_self b), hown k ho name hk n hn htag⟩
  · obtain ⟨c, hc, he⟩ := ht k name hk ho n hn htag
    exact ⟨c, List.mem_append_left _ hc, he⟩

theorem Titled.synonym (ht : Titled g none r) (h k : Handle) (declared name : String) :
    Titled g none (r.synonym h k declared name) := by
  unfold Rendering.synonym
  split
  · exact ht
  · exact ht.push nofun

theorem Block.entitles {t : Typedef} {n : Node} {b : Block} {body : List String}
    (hn : g.get? k = some n) (hsubject : b.subject? = some k)
    (hlines : b.lines = headed (targetHead n t) body) (ht : n.tag? = none) :
    b.Entitles g k t.name :=
  ⟨n, body, hn, ht, hsubject, by rw [hlines, targetHead_untagged ht]⟩

theorem introduced_with_target {t : Typedef} {n : Node} {b : Block} {body : List String}
    (node : g.get? h = some (.typedef t)) (target : t.target = some k) (hn : g.get? k = some n)
    (hb : b ∈ r.blocks) (hsubject : b.subject? = some k)
    (hlines : b.lines = headed (targetHead n t) body) :
    ∃ b ∈ (r.synonym h k (declaredName n t) t.name).blocks, b.Names g h := by
  unfold Rendering.synonym
  split
  · rename_i hname
    refine ⟨b, hb, .inr ⟨t, k, node, target, ?_⟩⟩
    cases ht : n.tag? with
    | none => exact .inr (Block.entitles hn hsubject hlines ht)
    | some tag =>
      rw [declaredName, ht, Option.getD_some] at hname
      exact .inl ⟨.inl hsubject, n, hn, hname ▸ ht⟩
  · exact ⟨_, List.mem_append_right _ (List.mem_singleton_self _), .inl rfl⟩

/-- A target that is known by the name of its typedef was given that name before. -/
theorem Titled.named (hr : Titled g none r) (hb : Backs g none r) {t : Typedef}
    (hplain : ∀ n : Node, t.name ≠ n.anonymousName) {n : Node} {hs : List Handle}
    (node : g.get? h = some (.typedef t))
    (target : t.target = some k) (inner : g.get? k = some n) (aggregate : n.isAggregate = true)
    (mentions : mentioned g [k] = .ok hs) (forwards : Forwards g h hs r r₁)
    (same : (r₁.declarator g).typeName k = .ok t.name) :
    ∃ b ∈ r₁.blocks, b.Names g h := by
  have hb₁ := hb.forwards forwards
  cases ht : n.tag? with
  | some tag =>
    have htype := hb₁.typeName inner ht
    rw [same] at htype
    cases htype
    obtain ⟨_, b, hmem, hi⟩ := hb.use node rfl mentions forwards (List.mem_singleton_self k)
      (.aggregate inner aggregate) inner ht
    exact ⟨b, hmem, .inr ⟨t, k, node, target, .inl ⟨hi, n, inner, ht⟩⟩⟩
  | none =>
    unfold Declarator.typeName at same
    cases hfind : (r₁.declarator g).names.find? k with
    | some name =>
      rw [hfind] at same
      cases same
      obtain ⟨b, hmem, he⟩ := hr.forwards forwards k _ hfind nofun n inner ht
      exact ⟨b, hmem, .inr ⟨t, k, node, target, .inr he⟩⟩
    | none =>
      have hget : (r₁.declarator g).graph.get k = .ok n := by
        show g.get k = _
        simp only [Graph.get, inner]
      have hname : Declarator.plainName n = n.anonymousName := by
        cases n with
        | container kind c => simp only [Declarator.plainName, ht, Option.getD_none]
        | enumeration e => simp only [Declarator.plainName, ht, Option.getD_none]
        | _ => cases aggregate
      simp only [hfind, hget, Except.map, hname, Except.ok.injEq] at same
      exact absurd same.symm (hplain n)

theorem entitles_of_owner {t : Typedef} {n : Node} {b : Block} {body : List String}
    (hn : g.get? k = some n) (hname : (r.declarator g).typeName k = .ok (declaredName n t))
    (hsubject : b.subject? = some k) (hlines : b.lines = headed (targetHead n t) body) (j : Handle)
    (hj : some k = some j) (name : String) (hfind : r.names.find? j = some name) (m : Node)
    (hm : g.get? j = some m) (ht : m.tag? = none) : b.Entitles g j name := by
  cases hj
  rw [hn] at hm
  cases hm
  have hsame : name = t.name := by
    have hfind : (r.declarator g).names.find? k = some name := hfind
    rw [Declarator.typeName, hfind, declaredName, ht, Option.getD_none] at hname
    exact Except.ok.inj hname
  exact hsame ▸ Block.entitles hn hsubject hlines ht

theorem Renders.titled (hr : Renders g r h r') (hb : Backs g none r) (ht : Titled g none r) :
    Titled g none r' := by
  cases hr with
  | silent silent => exact ht
  | @container kind c tag hs r₁ lines node tagged mentions forwards shows =>
    refine ((ht.define h tag).forwards forwards).push ?_
    intro k hk name _ n hn htag
    cases hk
    rw [node] at hn
    cases hn
    change c.tag = none at htag
    rw [tagged] at htag
    cases htag
  | @enumeration e tag node tagged =>
    refine (ht.define h tag).push ?_
    intro k hk name _ n hn htag
    cases hk
    rw [node] at hn
    cases hn
    change e.tag = none at htag
    rw [tagged] at htag
    cases htag
  | values node untagged values => exact ht.push nofun
  | @ownContainer t k kind c hs r₁ lines node owns mentions forwards shows =>
    have hname := hb.declaredName t owns.node forwards
    refine (((ht.define k _).forwards forwards).push ?_).synonym h k _ t.name
    exact entitles_of_owner owns.node hname rfl (Block.lines_container ..)
  | @ownEnumeration t k e node owns =>
    have hname := hb.declaredName t owns.node (.refl g k _)
    refine ((ht.define k _).push ?_).synonym h k _ t.name
    exact entitles_of_owner owns.node hname rfl (Block.lines_enumeration ..)
  | named node target inner aggregate declared mentions forwards same => exact ht.forwards forwards
  | typedef node target inner declared mentions forwards shows =>
    exact (ht.forwards forwards).push nofun
  | function node mentions forwards shows => exact (ht.forwards forwards).push nofun
  | object node mentions forwards shows => exact (ht.forwards forwards).push nofun

/-- A typedef with a target is introduced when it is rendered, unless it has the name that
messages have for types without a name. -/
theorem Renders.introduces (hr : Renders g r h r') (hb : Backs g none r) (ht : Titled g none r)
    {d : Typedef} (hd : g.get? h = some (.typedef d)) (hsome : d.target.isSome = true)
    (hplain : ∀ n : Node, d.name ≠ n.anonymousName) :
    ∃ b ∈ r'.blocks, b.Names g h := by
  cases hr with
  | silent silent =>
    obtain ⟨n, hn, hs⟩ := silent
    rw [hn] at hd
    cases hd
    rw [show d.target = none from hs] at hsome
    cases hsome
  | @ownContainer t k kind c hs r₁ lines node owns mentions forwards shows =>
    exact introduced_with_target node owns.target owns.node
      (List.mem_append_right _ (List.mem_singleton_self _)) rfl (Block.lines_container ..)
  | @ownEnumeration t k e node owns =>
    exact introduced_with_target node owns.target owns.node
      (List.mem_append_right _ (List.mem_singleton_self _)) rfl (Block.lines_enumeration ..)
  | @named t k n hs r₁ node target inner aggregate declared mentions forwards same =>
    rw [node] at hd
    cases hd
    exact ht.named hb hplain node target inner aggregate mentions forwards same
  | @typedef t k n hs r₁ text node target inner declared mentions forwards shows =>
    exact ⟨_, List.mem_append_right _ (List.mem_singleton_self _), .inl rfl⟩
  | container node => rw [node] at hd; cases hd
  | enumeration node => rw [node] at hd; cases hd
  | values node => rw [node] at hd; cases hd
  | function node => rw [node] at hd; cases hd
  | object node => rw [node] at hd; cases hd

/-! ## Typedefs in order -/

/-- The typedefs among the items have targets, and none has the name that messages
have for types without a name. -/
def PlainTypedefs (g : Graph) : Prop :=
  ∀ h ∈ g.module.items, ∀ d, g.get? h = some (.typedef d) →
    d.target.isSome = true ∧ ∀ n : Node, d.name ≠ n.anonymousName

/-- What holds of a rendering of the items `done`. -/
structure Gives (g : Graph) (done : List Handle) (r : Rendering) : Prop where
  aggregates : ∀ k name, r.names.find? k = some name → ∃ n, g.get? k = some n ∧ n.isAggregate = true
  typedefs : ∀ j ∈ done, ∀ d, g.get? j = some (.typedef d) → ∃ b ∈ r.blocks, b.Names g j

theorem gives_start (g : Graph) : Gives g [] .start where
  aggregates _ _ hn := nomatch hn
  typedefs _ hj := nomatch hj

theorem Gives.define (hr : Gives g done r) {n : Node} (hn : g.get? k = some n)
    (ha : n.isAggregate = true) (name : String) : Gives g done (r.define k name) where
  aggregates j other hj := by
    have hfind : (r.names.insert k name).find? j = some other := hj
    rw [Table.find?_insert] at hfind
    split at hfind
    · rename_i he
      exact he ▸ ⟨n, hn, ha⟩
    · exact hr.aggregates j other hfind
  typedefs := hr.typedefs

theorem Gives.forwards (hr : Gives g done r) {hs : List Handle}
    (hf : Forwards g h hs r r₁) : Gives g done r₁ := by
  obtain ⟨bs, hbs, _⟩ := hf.blocks
  constructor
  case aggregates =>
    intro k name hk
    rcases hf.names k name hk with hk | ⟨m, hm, hmt, _⟩
    · exact hr.aggregates k name hk
    · exact ⟨m, hm, isAggregate_of_tag? hmt⟩
  case typedefs =>
    intro j hj d hd
    obtain ⟨b, hb, hi⟩ := hr.typedefs j hj d hd
    exact ⟨b, hbs ▸ List.mem_append_left _ hb, hi⟩

theorem Gives.push (hr : Gives g done r) (b : Block) : Gives g done (r.push b) where
  aggregates := hr.aggregates
  typedefs j hj d hd := by
    obtain ⟨c, hc, hi⟩ := hr.typedefs j hj d hd
    exact ⟨c, List.mem_append_left _ hc, hi⟩

theorem Gives.synonym (hr : Gives g done r) (h k : Handle) (declared name : String) :
    Gives g done (r.synonym h k declared name) := by
  unfold Rendering.synonym
  split
  · exact hr
  · exact hr.push _

theorem Gives.snoc (hr : Gives g done r)
    (hh : ∀ d, g.get? h = some (.typedef d) → ∃ b ∈ r.blocks, b.Names g h) :
    Gives g (done ++ [h]) r where
  aggregates := hr.aggregates
  typedefs j hj d hd := by
    rcases List.mem_append.mp hj with hj | hj
    · exact hr.typedefs j hj d hd
    · cases List.mem_singleton.mp hj
      exact hh d hd

theorem Gives.typeName (hr : Gives g done r) {j : Handle} {t : Typedef}
    (hn : g.get? j = some (.typedef t)) : (r.declarator g).typeName j = .ok t.name := by
  unfold Declarator.typeName
  cases hfind : (r.declarator g).names.find? j with
  | some name =>
    obtain ⟨n, hn', ha⟩ := hr.aggregates j name hfind
    rw [hn] at hn'
    cases hn'
    cases ha
  | none =>
    have hget : (r.declarator g).graph.get j = .ok (.typedef t) := by
      show g.get j = _
      simp only [Graph.get, hn]
    simp only [hget, Except.map, Declarator.plainName]

theorem Renders.gives (hr : Renders g r h r') (hb : Backs g none r) (ht : Titled g none r)
    (hgv : Gives g done r)
    (hplain : ∀ d, g.get? h = some (.typedef d) →
      d.target.isSome = true ∧ ∀ n : Node, d.name ≠ n.anonymousName) :
    Gives g (done ++ [h]) r' := by
  have hnamed (d : Typedef) (hd : g.get? h = some (.typedef d)) :
      ∃ b ∈ r'.blocks, b.Names g h :=
    hr.introduces hb ht hd (hplain d hd).1 (hplain d hd).2
  suffices hgives : Gives g done r' from hgives.snoc hnamed
  cases hr with
  | silent silent => exact hgv
  | container node _ _ forwards _ => exact ((hgv.define node rfl _).forwards forwards).push _
  | enumeration node _ => exact (hgv.define node rfl _).push _
  | values => exact hgv.push _
  | ownContainer _ owns _ forwards _ =>
    exact (((hgv.define owns.node rfl _).forwards forwards).push _).synonym ..
  | ownEnumeration _ owns => exact ((hgv.define owns.node rfl _).push _).synonym ..
  | named _ _ _ _ _ _ forwards _ => exact hgv.forwards forwards
  | typedef _ _ _ _ _ forwards _ => exact (hgv.forwards forwards).push _
  | function _ _ forwards _ => exact (hgv.forwards forwards).push _
  | object _ _ forwards _ => exact (hgv.forwards forwards).push _

/-- The typedefs that the block prints have their names from `before`. -/
def Block.TypedefsNamed (d : Declarator) (before : List Block) (b : Block) : Prop :=
  ∀ type ∈ b.types, ∀ j t, d.graph.Spells type j → d.graph.get? j = some (.typedef t) →
    d.typeName j = .ok t.name ∧ ∃ b' ∈ before, b'.Names d.graph j

theorem Gives.typedefsNamed (hr : Gives g done r) {b : Block}
    (huse : ∀ type ∈ b.types, ∀ j, g.Spells type j → j ∈ done) :
    b.TypedefsNamed (r.declarator g) r.blocks := by
  intro type htype j t hj hd
  exact ⟨hr.typeName hd, hr.typedefs j (huse type htype j hj) t hd⟩

theorem Renders.typedefsNamed (hr : Renders g r h r') (hgv : Gives g done r)
    (huse : ∀ type, g.Prints h type → ∀ j, g.Spells type j → j ∈ done) :
    Extends (fun before b => b.TypedefsNamed (r'.declarator g) before) r r' := by
  have hnone {b : Block} (hb : b.types = []) (names : Table Handle String) (before : List Block) :
      b.TypedefsNamed ⟨g, names⟩ before := by
    intro type htype
    rw [hb] at htype
    cases htype
  have hforward (names : Table Handle String) (before : List Block) (b : Block)
      (hb : b.IsForward g) : b.TypedefsNamed ⟨g, names⟩ before := hnone hb.types _ _
  have hfields {c : Container} {k : Handle} {kind : ContainerKind} {lines : List (Field × String)}
      {d : Declarator} (hshows : ShowsFields d c.fields lines)
      (hk : g.get? k = some (.container kind c)) (hprinted : g.PrintsBody h k) :
      ∀ type ∈ lines.map (·.1.type), ∀ j, g.Spells type j → j ∈ done := by
    intro type htype j hj
    rw [hshows.types] at htype
    obtain ⟨f, hf, rfl⟩ := List.mem_map.mp htype
    exact huse _ (.field hprinted hk hf) j hj
  have hsynonym {k : Handle} {n : Node} (hn : g.get? k = some n) (ha : n.isAggregate = true) :
      ∀ type ∈ [k], ∀ j, g.Spells type j → j ∈ done := by
    intro type htype j hj
    rw [List.mem_singleton.mp htype] at hj
    exact absurd hj (Graph.not_spells_of_aggregate hn ha)
  have hone {k : Handle} (hk : g.Prints h k) : ∀ type ∈ [k], ∀ j, g.Spells type j → j ∈ done := by
    intro type htype j hj
    rw [List.mem_singleton.mp htype] at hj
    exact huse k hk j hj
  cases hr with
  | silent silent => exact .refl _ r
  | container node tagged mentions forwards shows =>
    have hroot : g.Root h h := .inl ⟨rfl, _, _, node, by rw [tagged]; rfl⟩
    refine ((Extends.define r h _).forwards forwards (hforward _)).push ?_
    refine ((hgv.define node rfl _).forwards forwards).typedefsNamed ?_
    exact hfields shows node ⟨h, hroot, .inl ⟨rfl, .inl rfl⟩⟩
  | enumeration node tagged => exact (Extends.define r h _).push (hnone rfl _ _)
  | values node untagged values => exact (Extends.refl _ r).push (hnone rfl _ _)
  | @ownContainer t k kind c hs r₁ lines node owns mentions forwards shows =>
    have hroot : g.Root h k := .inr ⟨t, kind, c, node, owns.target, owns.node⟩
    have hgv₁ := (hgv.define owns.node rfl (declaredName (.container kind c) t)).forwards forwards
    rw [Rendering.declarator, Rendering.names_synonym]
    refine Extends.synonym ?_ fun _ => (hgv₁.push _).typedefsNamed (hsynonym owns.node rfl)
    refine ((Extends.define r _ _).forwards forwards (hforward _)).push ?_
    exact hgv₁.typedefsNamed (hfields shows owns.node ⟨k, hroot, .inl ⟨rfl, .inr owns.free⟩⟩)
  | @ownEnumeration t k e node owns =>
    have hgv₁ := hgv.define owns.node rfl (declaredName (.enumeration e) t)
    rw [Rendering.declarator, Rendering.names_synonym]
    refine Extends.synonym ?_ fun _ => (hgv₁.push _).typedefsNamed (hsynonym owns.node rfl)
    exact (Extends.define r _ _).push (hnone rfl _ _)
  | named node target inner aggregate declared mentions forwards same =>
    exact (Extends.refl _ r).forwards forwards (hforward _)
  | typedef node target inner declared mentions forwards shows =>
    refine ((Extends.refl _ r).forwards forwards (hforward _)).push ?_
    exact (hgv.forwards forwards).typedefsNamed (hone (.target node target))
  | function node mentions forwards shows =>
    refine ((Extends.refl _ r).forwards forwards (hforward _)).push ?_
    exact (hgv.forwards forwards).typedefsNamed (hone (.function node))
  | object node mentions forwards shows =>
    refine ((Extends.refl _ r).forwards forwards (hforward _)).push ?_
    exact (hgv.forwards forwards).typedefsNamed (hone (.object node))

/-- Where each item comes behind the typedefs that are printed with it, every typedef
that a block prints is introduced by an earlier block. -/
theorem typedefs_backed (hg : g.Closed) (hi : ∀ h ∈ g.module.items, h.index < g.size)
    (hn : g.module.items.Nodup) (hf : g.TypedefsFirst) (hplain : PlainTypedefs g) :
    ∃ ps, Prints g ⟨none⟩ ps ∧ ∀ before p behind, ps = before ++ p :: behind →
      p.2.TypedefsBacked ⟨g, p.1⟩ before := by
  obtain ⟨ps, r, hprints, hall⟩ := prints_run_all hg hi
  refine ⟨ps, hprints, fun before p behind hsplit type htype j t hj hd => ?_⟩
  have hnamed := hall.blocks_follow
    (I := fun done r => Backs g none r ∧ Titled g none r ∧ Gives g done r)
    (P := fun d before b => b.TypedefsNamed d before)
    ⟨backs_start g, titled_start g, gives_start g⟩
    (fun done h rest hitems r r₁ ⟨hb, ht, hgv⟩ hrenders => by
      have hh : h ∈ g.module.items := hitems ▸ List.mem_append_right _ List.mem_cons_self
      have huse (type : Handle) (htype : g.Prints h type) (j : Handle) (hj : g.Spells type j) :
          j ∈ done := (hf h hh type htype j hj).mem_before hn hitems
      exact ⟨⟨hrenders.backs hb, hrenders.titled hb ht, hrenders.gives hb ht hgv (hplain h hh)⟩,
        hrenders.typedefsNamed hgv huse⟩)
    before p behind hsplit
  obtain ⟨hname, b', hb', hnames⟩ := hnamed type htype j t hj hd
  obtain ⟨p', hp', rfl⟩ := List.mem_map.mp hb'
  have hsaid := hprints.truthful p' (by simp [hsplit, hp'])
  exact ⟨hname, p', hp', hsaid.introducesTypedef hnames⟩

end

end CythonDecls.Pxd
