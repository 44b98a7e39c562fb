import CythonDecls.Proofs.Pxd.Blocks

/-!
# Tags come before their uses

The aggregates behind a type are collected on one walk and printed on another.
Both reach what the type mentions, so whatever a block prints by its tag is
introduced by a block before it, or is what the block itself declares.
-/

namespace CythonDecls.Pxd

/-! ## What a type mentions -/

/-- The type `h` mentions the aggregate `k`, through pointers, arrays and functions. -/
inductive Mentions (g : Graph) : Handle → Handle → Prop where
  | aggregate {h : Handle} {n : Node} (node : g.get? h = some n)
      (aggregate : n.isAggregate = true) : Mentions g h h
  | part {h j k : Handle} {n : Node} (node : g.get? h = some n) (part : j ∈ n.parts)
      (rest : Mentions g j k) : Mentions g h k

section
variable {g : Graph}

theorem Mentions.cases_node {h k : Handle} {n : Node} (hm : Mentions g h k)
    (hn : g.get? h = some n) :
    (k = h ∧ n.isAggregate = true) ∨ ∃ j ∈ n.parts, Mentions g j k := by
  cases hm with
  | aggregate node aggregate =>
    rw [hn] at node
    cases node
    exact .inl ⟨rfl, aggregate⟩
  | part node part rest =>
    rw [hn] at node
    cases node
    exact .inr ⟨_, part, rest⟩

theorem Mentions.eq_of_aggregate {h k : Handle} {n : Node} (hm : Mentions g h k)
    (hn : g.get? h = some n) (ha : n.isAggregate = true) : k = h := by
  rcases hm.cases_node hn with ⟨rfl, _⟩ | ⟨j, hj, _⟩
  · rfl
  · cases n with
    | container kind c => cases hj
    | enumeration e => cases hj
    | _ => cases ha

/-- What is found stays found, and what `h` mentions is found. -/
def Finds (g : Graph) (h : Handle) (found out : List Handle) : Prop :=
  (∀ k ∈ found, k ∈ out) ∧ ∀ k, Mentions g h k → k ∈ out

theorem foldlM_finds {f : List Handle → Handle → Except Fault (List Handle)} {types : List Handle}
    (hf : ∀ h ∈ types, ∀ found out, f found h = .ok out → Finds g h found out) :
    ∀ found out, types.foldlM f found = .ok out →
      (∀ k ∈ found, k ∈ out) ∧ ∀ h ∈ types, ∀ k, Mentions g h k → k ∈ out := by
  induction types with
  | nil =>
    intro found out ho
    cases ho
    exact ⟨fun _ => id, fun _ hh => nomatch hh⟩
  | cons h types ih =>
    intro found out ho
    rw [List.foldlM_cons] at ho
    cases hm : f found h with
    | error e =>
      rw [hm] at ho
      cases ho
    | ok mid =>
      rw [hm] at ho
      obtain ⟨hkept, hnew⟩ := hf h List.mem_cons_self found mid hm
      obtain ⟨hkept', hrest⟩ := ih (fun j hj => hf j (List.mem_cons_of_mem _ hj)) mid out ho
      refine ⟨fun k hk => hkept' k (hkept k hk), fun j hj k hk => ?_⟩
      rcases List.mem_cons.mp hj with rfl | hj
      · exact hkept' k (hnew k hk)
      · exact hrest j hj k hk

theorem collect_finds (n : Nat) : ∀ h found out, collect g n found h = .ok out →
    Finds g h found out := by
  induction n with
  | zero => exact fun _ _ _ ho => nomatch ho
  | succ n ih =>
    intro h found out ho
    unfold collect at ho
    cases hm : g.get? h with
    | none =>
      simp only [Graph.get, hm] at ho
      cases ho
    | some m =>
      have hget : g.get h = .ok m := by simp only [Graph.get, hm]
      simp only [hget, bind, Except.bind] at ho
      -- an aggregate is collected and not entered: its parts are printed by its own block
      have hself (ho : (pure (if found.contains h then found else found ++ [h]) :
          Except Fault (List Handle)) = .ok out) (hp : m.parts = []) : Finds g h found out := by
        cases ho
        refine ⟨fun k hk => ?_, fun k hk => ?_⟩
        · split
          · exact hk
          · exact List.mem_append_left _ hk
        · rcases hk.cases_node hm with ⟨rfl, _⟩ | ⟨j, hj, _⟩
          · split
            · rename_i hc
              exact List.contains_iff_mem.mp hc
            · exact List.mem_append_right _ (List.mem_singleton_self _)
          · rw [hp] at hj
            cases hj
      -- a pointer or an array passes the walk on to the one type behind it
      have hone {target : Handle} (ho : collect g n found target = .ok out)
          (hp : m.parts = [target]) (ha : m.isAggregate = false) : Finds g h found out := by
        obtain ⟨hkept, hnew⟩ := ih target found out ho
        refine ⟨hkept, fun k hk => ?_⟩
        rcases hk.cases_node hm with ⟨_, ha'⟩ | ⟨j, hj, hk⟩
        · rw [ha] at ha'
          cases ha'
        · rw [hp] at hj
          exact hnew k (List.mem_singleton.mp hj ▸ hk)
      cases m with
      | pointer target => exact hone ho rfl rfl
      | array target dim => exact hone ho rfl rfl
      | function f =>
        -- the result comes first, then the arguments: one fold over all parts
        have hall : (f.returns :: f.arguments.map (·.type)).foldlM (collect g n) found =
            .ok out := ho
        obtain ⟨hkept, hnew⟩ := foldlM_finds (g := g) (fun j _ => ih j) found out hall
        refine ⟨hkept, fun k hk => ?_⟩
        rcases hk.cases_node hm with ⟨_, ha⟩ | ⟨j, hj, hk⟩
        · cases ha
        · exact hnew j hj k hk
      | container kind c => exact hself ho rfl
      | enumeration e => exact hself ho rfl
      | _ =>
        cases ho
        refine ⟨fun _ => id, fun k hk => ?_⟩
        rcases hk.cases_node hm with ⟨_, ha⟩ | ⟨j, hj, _⟩
        · cases ha
        · cases hj

/-- The walk that collects aggregates misses none that is mentioned. -/
theorem mentioned_complete {types hs : List Handle} (ho : mentioned g types = .ok hs) {h k : Handle}
    (hh : h ∈ types) (hk : Mentions g h k) : k ∈ hs :=
  (foldlM_finds (fun h _ => collect_finds _ h) [] hs ho).2 h hh k hk

end

/-! ## What a block prints -/

namespace Block

def types : Block → List Handle
  | forward .. => []
  | container _ _ lines => lines.map (·.1.type)
  | enumeration .. => []
  | synonym _ target .. => [target]
  | typedef _ target _ => [target]
  | function subject _ => [subject]
  | object _ type _ => [type]

/-- The block declares the aggregate `h` in full, with its tag in front. -/
def Declares (g : Graph) (h : Handle) (b : Block) : Prop :=
  ∃ n tag body, g.get? h = some n ∧ n.tag? = some tag ∧ b.subject? = some h ∧
    b.lines = headed s!"cdef {keyword n} {tag}" body

/-- The block declares the aggregate `h`, or has a line with its tag alone. -/
def Introduces (g : Graph) (h : Handle) (b : Block) : Prop :=
  b.Declares g h ∨ ∃ n tag, g.get? h = some n ∧ n.tag? = some tag ∧ b.forward? = some h ∧
    b.lines = [s!"cdef {keyword n} {tag}"]

/-- Every aggregate that the block prints by its tag is introduced by a block of
`before`, or is the one that the block declares. -/
def Backed (d : Declarator) (before : List Block) (b : Block) : Prop :=
  ∀ type ∈ b.types, ∀ k n tag, Mentions d.graph type k → d.graph.get? k = some n →
    n.tag? = some tag → d.typeName k = .ok tag ∧
      (b.Declares d.graph k ∨ ∃ b' ∈ before, b'.Introduces d.graph k)

theorem Says.declares {d : Declarator} {b : Block} (hb : b.Says d) {k : Handle} {n : Node}
    {tag : String} (hsubject : b.subject? = some k) (hn : d.graph.get? k = some n)
    (ht : n.tag? = some tag) : b.Declares d.graph k := by
  have hhead {head : String} (hh : d.Heads k head) : head = s!"cdef {keyword n} {tag}" := by
    cases hh with
    | tagged node tagged =>
      rw [hn] at node
      cases node
      rw [ht] at tagged
      cases tagged
      rfl
    | titled node untagged =>
      rw [hn] at node
      cases node
      rw [ht] at untagged
      cases untagged
    | values node untagged =>
      rw [hn] at node
      cases node
      exact nomatch ht.symm.trans untagged
  cases hb with
  | container node heads shows lines =>
    cases hsubject
    exact ⟨n, tag, _, hn, ht, rfl, by rw [lines, hhead heads]⟩
  | enumeration node heads lines =>
    cases hsubject
    exact ⟨n, tag, _, hn, ht, rfl, by rw [lines, hhead heads]⟩
  | _ => cases hsubject

theorem Says.introduces_forward {d : Declarator} {b : Block} (hb : b.Says d) {k : Handle}
    (hforward : b.forward? = some k) : b.Introduces d.graph k := by
  cases hb with
  | forward node tagged lines =>
    cases hforward
    exact .inr ⟨_, _, node, tagged, rfl, lines⟩
  | _ => cases hforward

end Block

/-! ## What holds while an item is rendered -/

/-- The block is the one with the body of `h`, or with its tag alone. -/
def Block.IsAbout (h : Handle) (b : Block) : Prop := b.subject? = some h ∨ b.forward? = some h

theorem Block.Says.introduces {d : Declarator} {b : Block} (hb : b.Says d) {k : Handle} {n : Node}
    {tag : String} (habout : b.IsAbout k) (hn : d.graph.get? k = some n) (ht : n.tag? = some tag) :
    b.Introduces d.graph k :=
  habout.elim (fun hsubject => .inl (hb.declares hsubject hn ht)) hb.introduces_forward

/-- What the block prints by its tag has a block in `before`, or is its own subject. -/
def Block.Grounded (d : Declarator) (before : List Block) (b : Block) : Prop :=
  ∀ type ∈ b.types, ∀ k n tag, Mentions d.graph type k → d.graph.get? k = some n →
    n.tag? = some tag → d.typeName k = .ok tag ∧
      (b.subject? = some k ∨ ∃ b' ∈ before, b'.IsAbout k)

theorem Block.grounded_of_types_nil {b : Block} (hb : b.types = []) (d : Declarator)
    (before : List Block) : b.Grounded d before := by
  intro type htype
  rw [hb] at htype
  cases htype

theorem Block.IsForward.types {g : Graph} {b : Block} (hb : b.IsForward g) : b.types = [] := by
  obtain ⟨_, _, _, _, _, rfl⟩ := hb
  rfl

/-- What holds of a rendering in which the block of `owner` is still to come. -/
structure Backs (g : Graph) (owner : Option Handle) (r : Rendering) : Prop where
  known : ∀ h, r.Known h → owner ≠ some h → ∀ n tag, g.get? h = some n → n.tag? = some tag →
    ∃ b ∈ r.blocks, b.IsAbout h
  names : ∀ h name, r.names.find? h = some name → ∀ n tag, g.get? h = some n → n.tag? = some tag →
    name = tag

section
variable {g : Graph} {owner : Option Handle} {r r₁ : Rendering}

theorem backs_start (g : Graph) : Backs g none .start where
  known _ hk := by rcases hk with hk | hk <;> cases hk
  names _ _ hn := nomatch hn

theorem Backs.define (hb : Backs g none r) {h : Handle} {name : String}
    (hname : ∀ n tag, g.get? h = some n → n.tag? = some tag → name = tag) :
    Backs g (some h) (r.define h name) where
  known k hk hne n tag hn ht := by
    have hkh : k ≠ h := fun he => hne (congrArg some he.symm)
    refine hb.known k ?_ nofun n tag hn ht
    exact hk.imp_left fun hk => (List.mem_cons.mp hk).resolve_left hkh
  names k other hk := by
    have hfind : (r.names.insert h name).find? k = some other := hk
    rw [Table.find?_insert] at hfind
    split at hfind
    · rename_i he
      cases hfind
      exact he ▸ hname
    · exact hb.names k other hfind

theorem Backs.forwards (hb : Backs g owner r) {h : Handle} {hs : List Handle}
    (hf : Forwards g h hs r r₁) : Backs g owner r₁ := by
  obtain ⟨bs, hbs, _⟩ := hf.blocks
  constructor
  case known =>
    intro k hk hne n tag hn ht
    have hold (hk : r.Known k) : ∃ b ∈ r₁.blocks, b.IsAbout k := by
      obtain ⟨b, hb, hi⟩ := hb.known k hk hne n tag hn ht
      exact ⟨b, hbs ▸ List.mem_append_left _ hb, hi⟩
    rcases hk with hk | hk
    · exact hold (.inl (hf.defined ▸ hk))
    · rcases hf.announced k hk with hk | ⟨name, m, _, _, hblock⟩
      · exact hold (.inr hk)
      · exact ⟨_, hblock, .inr rfl⟩
  case names =>
    intro k name hk n tag hn ht
    rcases hf.names k name hk with hk | ⟨m, hm, hmt, _⟩
    · exact hb.names k name hk n tag hn ht
    · rw [hn] at hm
      cases hm
      rw [ht] at hmt
      exact (Option.some.inj hmt).symm

theorem Backs.push (hb : Backs g owner r) {b : Block}
    (hsubject : ∀ h, owner = some h → b.subject? = some h) : Backs g none (r.push b) where
  known h hk _ n tag hn ht := by
    by_cases ho : owner = some h
    · exact ⟨b, List.mem_append_right _ (List.mem_singleton_self b), .inl (hsubject h ho)⟩
    · obtain ⟨c, hc, hi⟩ := hb.known h hk ho n tag hn ht
      exact ⟨c, List.mem_append_left _ hc, hi⟩
  names := hb.names

theorem Backs.synonym (hb : Backs g none r) (h k : Handle) (declared name : String) :
    Backs g none (r.synonym h k declared name) := by
  unfold Rendering.synonym
  split
  · exact hb
  · exact hb.push nofun

theorem Backs.typeName (hb : Backs g owner r) {k : Handle} {n : Node} {tag : String}
    (hn : g.get? k = some n) (ht : n.tag? = some tag) : (r.declarator g).typeName k = .ok tag := by
  unfold Declarator.typeName
  cases hfind : (r.declarator g).names.find? k with
  | some name => rw [hb.names k name hfind n tag hn ht]
  | none =>
    have hget : (r.declarator g).graph.get k = .ok n := by
      show g.get k = _
      simp only [Graph.get, hn]
    have hplain : Declarator.plainName n = tag := by
      cases n with
      | container kind c => simp only [Declarator.plainName, ht, Option.getD_some]
      | enumeration e => simp only [Declarator.plainName, ht, Option.getD_some]
      | _ => cases ht
    simp only [hget, Except.map, hplain]

/-- After the tags of `types` were introduced, what these types mention can be printed. -/
theorem Backs.mentions (hb : Backs g owner r) {h : Handle} {hs types : List Handle}
    (hm : mentioned g types = .ok hs) (hf : Forwards g h hs r r₁)
    (howner : ∀ k, owner = some k → k = h) {type k : Handle} {n : Node} {tag : String}
    (htype : type ∈ types) (hk : Mentions g type k) (hn : g.get? k = some n)
    (ht : n.tag? = some tag) : (r₁.declarator g).typeName k = .ok tag ∧
      (k = h ∨ ∃ b ∈ r₁.blocks, b.IsAbout k) := by
  have hb₁ := hb.forwards hf
  refine ⟨hb₁.typeName hn ht, ?_⟩
  by_cases hkh : k = h
  · exact .inl hkh
  · have hknown := hf.met k (mentioned_complete hm htype hk) hkh n hn (by rw [ht]; rfl)
    exact .inr (hb₁.known k hknown (fun ho => hkh (howner k ho)) n tag hn ht)

/-! ## One item after the other -/

theorem ShowsFields.types {d : Declarator} {fs : List Field} {lines : List (Field × String)}
    (hs : ShowsFields d fs lines) : lines.map (·.1.type) = fs.map (·.type) := by
  unfold ShowsFields at hs
  induction hs with
  | nil => rfl
  | cons hp _ ih => rw [List.map_cons, List.map_cons, ih, hp.1]

theorem tag_eq_declaredName {k : Handle} {n : Node} (hn : g.get? k = some n) (t : Typedef) :
    ∀ m tag, g.get? k = some m → m.tag? = some tag → declaredName n t = tag := by
  intro m tag hm ht
  rw [hn] at hm
  cases hm
  simp only [declaredName, ht, Option.getD_some]

theorem Backs.declaredName (hb : Backs g none r) (t : Typedef) {h k : Handle} {n : Node}
    {hs : List Handle} (hn : g.get? k = some n)
    (hf : Forwards g h hs (r.define k (declaredName n t)) r₁) :
    (r₁.declarator g).typeName k = .ok (Pxd.declaredName n t) := by
  have hb₁ := (hb.define (tag_eq_declaredName hn t)).forwards hf
  cases ht : n.tag? with
  | some tag =>
    rw [hb₁.typeName hn ht]
    simp only [Pxd.declaredName, ht, Option.getD_some]
  | none =>
    have hdefined : (r.define k (Pxd.declaredName n t)).names.find? k =
        some (Pxd.declaredName n t) := (Table.find?_insert ..).trans (if_pos rfl)
    obtain ⟨name, hname⟩ := Option.isSome_iff_exists.mp (hf.kept k (by rw [hdefined]; rfl))
    have hsame : name = Pxd.declaredName n t := by
      rcases hf.names k name hname with hold | ⟨m, hm, hmt, _⟩
      · rw [hdefined] at hold
        exact (Option.some.inj hold).symm
      · -- only tags are introduced
        rw [hn] at hm
        cases hm
        rw [ht] at hmt
        cases hmt
    have hfind : (r₁.declarator g).names.find? k = some name := hname
    simp only [Declarator.typeName, hfind, hsame]

theorem isAggregate_of_tag? {n : Node} {tag : String} (ht : n.tag? = some tag) :
    n.isAggregate = true := by
  cases n with
  | container kind c => rfl
  | enumeration e => rfl
  | _ => cases ht

theorem Backs.use (hb : Backs g none r) {h : Handle} {m : Node} {hs types : List Handle}
    (hm : g.get? h = some m) (ha : m.isAggregate = false) (hmention : mentioned g types = .ok hs)
    (hf : Forwards g h hs r r₁) {type k : Handle} {n : Node} {tag : String} (htype : type ∈ types)
    (hk : Mentions g type k) (hn : g.get? k = some n) (ht : n.tag? = some tag) :
    (r₁.declarator g).typeName k = .ok tag ∧ ∃ b ∈ r₁.blocks, b.IsAbout k := by
  obtain ⟨hname, rfl | hintro⟩ := hb.mentions hmention hf nofun htype hk hn ht
  · rw [hm] at hn
    cases hn
    rw [isAggregate_of_tag? ht] at ha
    cases ha
  · exact ⟨hname, hintro⟩

theorem tag_eq_of_tagged {k : Handle} {n : Node} {tag : String} (hn : g.get? k = some n)
    (ht : n.tag? = some tag) : ∀ m tag', g.get? k = some m → m.tag? = some tag' → tag = tag' := by
  intro m tag' hm ht'
  rw [hn] at hm
  cases hm
  exact Option.some.inj (ht.symm.trans ht')

theorem Backs.grounded_container (hb : Backs g none r) {k : Handle} {c : Container}
    {name head : String} {hs : List Handle} {lines : List (Field × String)}
    (hname : ∀ m tag, g.get? k = some m → m.tag? = some tag → name = tag)
    (hm : mentioned g (c.fields.map (·.type)) = .ok hs) (hf : Forwards g k hs (r.define k name) r₁)
    (hshows : ShowsFields (r₁.declarator g) c.fields lines) :
    (Block.container k head lines).Grounded (r₁.declarator g) r₁.blocks := by
  intro type htype j m tag hj hget ht
  have htype : type ∈ c.fields.map (·.type) := hshows.types ▸ htype
  obtain ⟨hname, hor⟩ := (hb.define hname).mentions hm hf
    (fun _ he => (Option.some.inj he).symm) htype hj hget ht
  exact ⟨hname, hor.imp_left fun he => congrArg some he.symm⟩

theorem Backs.grounded_synonym (hb : Backs g none r) {k : Handle} {n : Node}
    (hn : g.get? k = some n) (ha : n.isAggregate = true) (hdefined : k ∈ r.defined) (h : Handle)
    (declared name : String) :
    (Block.synonym h k declared name).Grounded (r.declarator g) r.blocks := by
  intro type htype j m tag hj hm ht
  rw [List.mem_singleton.mp htype] at hj
  rw [hj.eq_of_aggregate hn ha] at hm ⊢
  exact ⟨hb.typeName hm ht, .inr (hb.known k (.inl hdefined) nofun m tag hm ht)⟩

theorem Renders.backs {h : Handle} {r' : Rendering} (hr : Renders g r h r')
    (hb : Backs g none r) : Backs g none r' := by
  cases hr with
  | silent silent => exact hb
  | container node tagged mentions forwards shows =>
    exact ((hb.define (tag_eq_of_tagged node tagged)).forwards forwards).push fun _ hk => hk ▸ rfl
  | enumeration node tagged =>
    exact (hb.define (tag_eq_of_tagged node tagged)).push fun _ hk => hk ▸ rfl
  | values node untagged values => exact hb.push nofun
  | ownContainer node owns mentions forwards shows =>
    refine Backs.synonym ?_ ..
    exact ((hb.define (tag_eq_declaredName owns.node _)).forwards forwards).push
      fun _ hk => hk ▸ rfl
  | ownEnumeration node owns =>
    refine Backs.synonym ?_ ..
    exact (hb.define (tag_eq_declaredName owns.node _)).push fun _ hk => hk ▸ rfl
  | named node target inner aggregate declared mentions forwards same => exact hb.forwards forwards
  | typedef node target inner declared mentions forwards shows =>
    exact (hb.forwards forwards).push nofun
  | function node mentions forwards shows => exact (hb.forwards forwards).push nofun
  | object node mentions forwards shows => exact (hb.forwards forwards).push nofun

theorem Renders.grounded {h : Handle} {r' : Rendering} (hr : Renders g r h r')
    (hb : Backs g none r) : Extends (fun before b => b.Grounded (r'.declarator g) before) r r' := by
  have hforward (names : Table Handle String) (before : List Block) (b : Block)
      (hb : b.IsForward g) : b.Grounded ⟨g, names⟩ before :=
    Block.grounded_of_types_nil hb.types _ _
  cases hr with
  | silent silent => exact .refl _ r
  | container node tagged mentions forwards shows =>
    refine ((Extends.define r h _).forwards forwards (hforward _)).push ?_
    exact hb.grounded_container (tag_eq_of_tagged node tagged) mentions forwards shows
  | enumeration node tagged =>
    exact (Extends.define r h _).push (Block.grounded_of_types_nil rfl _ _)
  | values node untagged values =>
    exact (Extends.refl _ r).push (Block.grounded_of_types_nil rfl _ _)
  | @ownContainer t k kind c hs r₁ lines node owns mentions forwards shows =>
    have hdefined : k ∈ r₁.defined := forwards.defined ▸ List.mem_cons_self
    have hname := tag_eq_declaredName owns.node t
    have hpush := ((hb.define hname).forwards forwards).push
      (b := .container k (targetHead (.container kind c) t) lines) fun _ hk => hk ▸ rfl
    rw [Rendering.declarator, Rendering.names_synonym]
    refine Extends.synonym ?_ fun _ => hpush.grounded_synonym owns.node rfl hdefined h _ _
    refine ((Extends.define r _ _).forwards forwards (hforward _)).push ?_
    exact hb.grounded_container hname mentions forwards shows
  | @ownEnumeration t k e node owns =>
    have hpush := (hb.define (tag_eq_declaredName owns.node t)).push
      (b := .enumeration k (targetHead (.enumeration e) t) e.values) fun _ hk => hk ▸ rfl
    rw [Rendering.declarator, Rendering.names_synonym]
    refine Extends.synonym ?_ fun _ =>
      hpush.grounded_synonym owns.node rfl List.mem_cons_self h _ _
    exact (Extends.define r _ _).push (Block.grounded_of_types_nil rfl _ _)
  | named node target inner aggregate declared mentions forwards same =>
    exact (Extends.refl _ r).forwards forwards (hforward _)
  | @typedef t k n hs r₁ text node target inner declared mentions forwards shows =>
    refine ((Extends.refl _ r).forwards forwards (hforward _)).push ?_
    intro type htype j m tag hj hm ht
    exact (hb.use node rfl mentions forwards htype hj hm ht).imp_right .inr
  | @function f hs r₁ text node mentions forwards shows =>
    refine ((Extends.refl _ r).forwards forwards (hforward _)).push ?_
    intro type htype j m tag hj hm ht
    rw [List.mem_singleton.mp htype] at hj
    rcases hj.cases_node node with ⟨_, ha⟩ | ⟨i, hi, hj⟩
    · cases ha
    · exact (hb.use node rfl mentions forwards hi hj hm ht).imp_right .inr
  | @object v hs r₁ text node mentions forwards shows =>
    refine ((Extends.refl _ r).forwards forwards (hforward _)).push ?_
    intro type htype j m tag hj hm ht
    exact (hb.use node rfl mentions forwards htype hj hm ht).imp_right .inr

end

/-- In the blocks of a closed graph, whatever the filter keeps, every struct, union
or enum that is printed by its tag is introduced by an earlier block, or is declared
by that block. -/
theorem tags_introduced {g : Graph} (hg : g.Closed) (hi : ∀ h ∈ g.module.items, h.index < g.size)
    (filter : Filter) : ∃ ps, Prints g filter ps ∧
      ∀ before p behind, ps = before ++ p :: behind →
        p.2.Backed ⟨g, p.1⟩ (before.map (·.2)) := by
  obtain ⟨ps, r, hprints, hall⟩ := prints_run hg hi filter
  refine ⟨ps, hprints, fun before p behind hsplit => ?_⟩
  have hgrounded := hall.blocks_follow (I := fun _ r => Backs g none r)
    (P := fun d before b => b.Grounded d before) (backs_start g)
    (fun _ _ _ _ r r₁ hb hrenders => ⟨hrenders.backs hb, hrenders.grounded hb⟩)
    before p behind hsplit
  intro type htype k n tag hk hn ht
  obtain ⟨hname, hown | ⟨b', hb', habout⟩⟩ := hgrounded type htype k n tag hk hn ht
  · have hsaid := hprints.truthful p (by simp [hsplit])
    exact ⟨hname, .inl (hsaid.declares hown hn ht)⟩
  · obtain ⟨p', hp', rfl⟩ := List.mem_map.mp hb'
    have hsaid := hprints.truthful p' (by simp [hsplit, hp'])
    exact ⟨hname, .inr ⟨p'.2, hb', hsaid.introduces habout hn ht⟩⟩

namespace Sample

def listName : Typedef := ⟨"list_t", some ⟨2⟩, none⟩

/-- `struct node { struct node *next; struct list *owner; }` of another file,
`typedef struct list { struct node *head; } list_t` and
`void visit(struct list *list, void (*each)(struct node *))`. -/
def lists : Graph where
  nodes := #[.container .struct ⟨some "node", [⟨"next", ⟨1⟩, .readWrite, false⟩,
      ⟨"owner", ⟨3⟩, .readWrite, false⟩], some ⟨"node.h", 1⟩⟩, .pointer ⟨0⟩,
    .container .struct ⟨some "list", [⟨"head", ⟨1⟩, .readWrite, false⟩], none⟩, .pointer ⟨2⟩,
    .typedef listName, .fundamental .void,
    .function ⟨"each", ⟨5⟩, [⟨none, ⟨1⟩⟩], false, none⟩, .pointer ⟨6⟩,
    .function ⟨"visit", ⟨5⟩, [⟨some "list", ⟨3⟩⟩, ⟨some "each", ⟨7⟩⟩], false, none⟩]
  fundamentals := Table.empty.insert "void" ⟨5⟩
  module := ⟨[⟨0⟩, ⟨4⟩, ⟨8⟩]⟩

end Sample

theorem tags_introduced_lists :
    Sample.lists.Closed ∧ (∀ h ∈ Sample.lists.module.items, h.index < Sample.lists.size) ∧
      ∃ ps, Prints Sample.lists ⟨some "list.h"⟩ ps ∧
        ∀ before p behind, ps = before ++ p :: behind →
          p.2.Backed ⟨Sample.lists, p.1⟩ (before.map (·.2)) :=
  ⟨by decide, by decide, tags_introduced (by decide) (by decide) ⟨some "list.h"⟩⟩

end CythonDecls.Pxd
