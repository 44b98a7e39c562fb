import CythonDecls.Proofs.Unnest.Ends

/-!
# What unnesting calls an extracted type

A type is called after the container around it and after its own tag, or the
field where it has none. What is around it was called so in turn, up to a root,
whose parts are called after its tag or typedef. A type that stands in two
places is called again at the second. The typedef left at the place is called
after the type.
-/

namespace CythonDecls

namespace Graph

/-- A field that defines its type on the spot. -/
structure Place where
  container : Handle
  index : Nat
  field : Field
  deriving DecidableEq

def fieldAt? (g : Graph) (c : Handle) (i : Nat) : Option Field :=
  (g.container? c).bind (·.fields[i]?)

def places (g : Graph) : List Place :=
  (List.range g.size).flatMap fun c =>
    (((g.container? ⟨c⟩).elim [] (·.fields)).zipIdx.map fun f => ⟨⟨c⟩, f.2, f.1⟩).filter fun p =>
      p.field.inline && (g.get? p.field.type).any Node.hasBody

/-- The containers that items declare, with the names that their parts are called after. -/
def roots (g : Graph) : List (Handle × String) :=
  g.module.items.filterMap fun item => (g.root? item).toOption.join

/-- The inner part of the name of what a field defines. -/
def innerName (g : Graph) (f : Field) : String := ((g.get? f.type).bind Node.tag?).getD f.name

/-- Something is called by a name, as a root or for the place where it stands. -/
inductive Called (g : Graph) : Option Place → Handle → String → Prop where
  | root {c : Handle} {name : String} (root : (c, name) ∈ g.roots) : Called g none c name
  | first {p : Place} {origin : Option Place} {outer : String} (place : p ∈ g.places)
      (around : Called g origin p.container outer) :
      Called g (some p) p.field.type (Unnesting.mangle outer (g.innerName p.field))
  | again {p q : Place} {origin : Option Place} {outer inner : String} (place : p ∈ g.places)
      (around : Called g origin p.container outer) (other : q ≠ p)
      (before : Called g (some q) p.field.type inner) :
      Called g (some p) p.field.type (Unnesting.mangle outer inner)

/-- Nothing is defined at a place any more. -/
def Vacated (g : Graph) (p : Place) : Prop :=
  ∃ f, g.fieldAt? p.container p.index = some f ∧ f.inline = false

/-- From `u` to `v`, types only got tags that `g` calls them by, at places that were given
up, and the new typedefs stand at such places and are called after the types. -/
structure Renames (g u v : Graph) : Prop where
  tags : ∀ h n n', u.get? h = some n → v.get? h = some n' → n'.tag? = n.tag? ∨
    ∃ p name, n'.tag? = some name ∧ g.Called (some p) h name ∧ v.Vacated p
  typedefs : ∀ h d, v.get? h = some (.typedef d) → u.size ≤ h.index → ∃ p name,
    d = ⟨name ++ "_t", some p.field.type, none⟩ ∧ g.Called (some p) p.field.type name ∧
      v.fieldAt? p.container p.index = some { p.field with type := h, inline := false }

section
variable {g u v w : Graph} {ex : List Handle} {p : Place} {c h item : Handle} {i : Nat} {f : Field}

theorem fieldAt?_eq_some : g.fieldAt? c i = some f ↔
    ∃ kind body, g.get? c = some (.container kind body) ∧ body.fields[i]? = some f :=
  Unnesting.field?_eq_some (u := ⟨g, [], ⟨0, 0⟩⟩)

theorem mem_places : p ∈ g.places ↔
    g.fieldAt? p.container p.index = some p.field ∧ p.field.inline = true ∧
      g.HasBody p.field.type := by
  have hbody (n? : Option Node) :
      n?.any Node.hasBody = true ↔ ∃ n, n? = some n ∧ n.hasBody = true := by
    cases n? <;> simp
  unfold places HasBody
  simp only [List.mem_flatMap, List.mem_range, List.mem_filter, List.mem_map, Bool.and_eq_true,
    hbody]
  constructor
  · intro ⟨c, _, ⟨f, hf, he⟩, hrest⟩
    subst he
    refine ⟨?_, hrest⟩
    have hget := List.mem_zipIdx_iff_getElem?.mp hf
    cases hc : g.container? ⟨c⟩ with
    | none => simp [hc] at hget
    | some body => simpa [fieldAt?, hc] using hget
  · intro ⟨hf, hrest⟩
    obtain ⟨kind, body, hbody, hget⟩ := fieldAt?_eq_some.mp hf
    have hc : g.container? p.container = some body := container?_eq_some.mpr ⟨kind, hbody⟩
    refine ⟨p.container.index, lt_of_get? hbody, ⟨(p.field, p.index), ?_, rfl⟩, hrest⟩
    apply List.mem_zipIdx_iff_getElem?.mpr
    simpa [hc] using hget

theorem Unnests.fieldAt?_inline (hu : g.Unnests u ex) (hf : u.fieldAt? c i = some f)
    (hi : f.inline = true) : g.fieldAt? c i = some f := by
  obtain ⟨kind, body, hbody, hget⟩ := fieldAt?_eq_some.mp hf
  rcases Nat.lt_or_ge c.index g.size with hlt | hge
  · obtain ⟨n, hn⟩ := get?_of_lt hlt
    obtain ⟨n', hn', hnn⟩ := hu.nodes c n hn
    rw [hbody] at hn'
    cases hn'
    cases hnn with
    | same => exact fieldAt?_eq_some.mpr ⟨kind, body, hn, hget⟩
    | container _ _ fields =>
      obtain ⟨f₀, hget₀, hff⟩ := getElem?_of_forall₂ fields hget
      cases hff with
      | same => exact fieldAt?_eq_some.mpr ⟨kind, _, hn, hget₀⟩
      | moved => cases hi
  · obtain ⟨_, _, _, he, _⟩ := hu.fresh c _ hbody hge
    cases he

theorem Unnests.fieldAt?_kept (hu : u.Unnests v ex) (hf : u.fieldAt? c i = some f)
    (hi : f.inline = false) : v.fieldAt? c i = some f := by
  obtain ⟨kind, body, hbody, hget⟩ := fieldAt?_eq_some.mp hf
  obtain ⟨n', hn', hnn⟩ := hu.nodes c _ hbody
  cases hnn with
  | same => exact fieldAt?_eq_some.mpr ⟨kind, body, hn', hget⟩
  | container _ _ fields =>
    obtain ⟨f', hget', hff⟩ := getElem?_of_forall₂ fields.flip hget
    cases hff with
    | same => exact fieldAt?_eq_some.mpr ⟨kind, _, hn', hget'⟩
    | moved inline =>
      rw [hi] at inline
      cases inline

theorem Unnests.append {ex' : List Handle} (hu : g.Unnests u ex) (hv : u.Unnests v ex') :
    g.Unnests v (ex ++ ex') := by
  have hu := hu.trans (.refl u (ex ++ ex')) fun _ => List.mem_append_left _
  have hv := hv.trans (.refl v (ex ++ ex')) fun _ => List.mem_append_right _
  exact hu.trans hv fun _ => id

theorem Unnests.vacated (hu : u.Unnests v ex) (hp : u.Vacated p) : v.Vacated p := by
  obtain ⟨f, hf, hi⟩ := hp
  exact ⟨f, hu.fieldAt?_kept hf hi, hi⟩

theorem Called.type {origin : Option Place} {name : String} (h : g.Called origin c name) :
    ∀ p ∈ origin, p ∈ g.places ∧ p.field.type = c := by
  cases h with
  | root => exact fun _ hp => nomatch hp
  | first place | again place =>
    intro q hq
    cases hq
    exact ⟨place, rfl⟩

theorem Renames.refl (g u : Graph) : g.Renames u u where
  tags _ _ _ hn hn' := .inl (by rw [Option.some.inj (hn.symm.trans hn')])
  typedefs _ _ hd hh := absurd (lt_of_get? hd) (Nat.not_lt.mpr hh)

theorem Renames.trans (h : g.Renames u v) (h' : g.Renames v w) (hu : u.Unnests v ex)
    {ex' : List Handle} (hv : v.Unnests w ex') : g.Renames u w where
  tags k n n'' hn hn'' := by
    obtain ⟨n', hn', _⟩ := hu.nodes k n hn
    rcases h'.tags k n' n'' hn' hn'' with he | hcalled
    · rcases h.tags k n n' hn hn' with he₀ | ⟨p, name, hname, hcalled, hp⟩
      · exact .inl (he.trans he₀)
      · exact .inr ⟨p, name, he.trans hname, hcalled, hv.vacated hp⟩
    · exact .inr hcalled
  typedefs k d hd hk := by
    rcases Nat.lt_or_ge k.index v.size with hlt | hge
    · obtain ⟨p, name, he, hcalled, hp⟩ := h.typedefs k d (hv.old_typedef hlt hd) hk
      exact ⟨p, name, he, hcalled, hv.fieldAt?_kept hp rfl⟩
    · exact h'.typedefs k d hd hge

end

end Graph

namespace Unnesting

variable {g : Graph} {rank : Handle → Nat} {u v : Unnesting} {c : Handle} {i : Nat} {f : Field}
  {outer : String}

/-- The fields of `c` are about to be unnested. What was called something is given up, unless
it is `c` or around it. -/
structure Ready (g : Graph) (rank : Handle → Nat) (c : Handle) (outer : String) (u : Unnesting) :
    Prop where
  unnests : ∃ ex, g.Unnests u.graph ex
  inRange : u.graph.InRange
  ranked : u.graph.RankedBelow rank c
  called : ∃ origin, g.Called origin c outer
  tags : ∀ h n n', g.get? h = some n → u.graph.get? h = some n' → n'.tag? = n.tag? ∨
    rank c ≤ rank h ∨ ∃ p name, n'.tag? = some name ∧ g.Called (some p) h name ∧ u.graph.Vacated p

theorem Ready.after (hr : Ready g rank c outer u) (hin : Inside rank c u v)
    (hv : g.Renames u.graph v.graph) : Ready g rank c outer v where
  unnests := by
    obtain ⟨ex, hu⟩ := hr.unnests
    exact ⟨_, hu.append hin.steps.unnests⟩
  inRange := hin.steps.unnests.inRange hr.inRange
  ranked := hin.steps.unnests.rankedBelow hr.ranked
  called := hr.called
  tags h n n'' hn hn'' := by
    obtain ⟨ex, hu⟩ := hr.unnests
    obtain ⟨n', hn', _⟩ := hu.nodes h n hn
    rcases hv.tags h n' n'' hn' hn'' with he | hcalled
    · rcases hr.tags h n n' hn hn' with he₀ | hrank | ⟨p, name, hname, hcalled, hp⟩
      · exact .inl (he.trans he₀)
      · exact .inr (.inl hrank)
      · exact .inr (.inr ⟨p, name, he.trans hname, hcalled, hin.steps.unnests.vacated hp⟩)
    · exact .inr (.inr hcalled)

theorem extract_renames {outer inner : String} (hf : v.field? c i = some f) (hi : f.inline = true)
    (hb : u.graph.HasBody f.type) (hsteps : Steps (u.named f.type (mangle outer inner)) v)
    (hcalled : g.Called (some ⟨c, i, f⟩) f.type (mangle outer inner))
    (hin : g.Renames (u.named f.type (mangle outer inner)).graph v.graph) :
    g.Renames u.graph (v.extract c i f.type (mangle outer inner)).graph := by
  obtain ⟨n₀, hn₀, hb₀⟩ := hb
  have hnamed := named_graph hn₀ (mangle outer inner)
  have hself := Graph.get?_set_self hn₀ (n₀.withTag (mangle outer inner))
  rw [← hnamed] at hself
  have hbv : v.graph.HasBody f.type := by
    refine hsteps.unnests.hasBody.mpr ⟨_, hself, ?_⟩
    cases n₀ <;> exact hb₀
  have hun := extract_unnests hf hi hbv outer inner
  have hfield := field?_extract hf f.type (mangle outer inner)
  constructor
  case tags =>
    intro h n n'' hn hn''
    by_cases hh : h = f.type
    · subst hh
      obtain ⟨n', hn', _⟩ := hsteps.unnests.nodes f.type _ hself
      rw [extract_tag hf hn' hn'']
      rcases hin.tags f.type _ n' hself hn' with he | ⟨p, name, hname, hc, hp⟩
      · rw [Node.tag?_withTag hb₀] at he
        exact .inr ⟨⟨c, i, f⟩, _, he, hcalled, _, hfield, rfl⟩
      · exact .inr ⟨p, name, hname, hc, hun.vacated hp⟩
    · have hkept : (u.named f.type (mangle outer inner)).graph.get? h = some n := by
        rw [hnamed, Graph.get?_set_ne _ hh, hn]
      obtain ⟨n', hn', _⟩ := hsteps.unnests.nodes h n hkept
      rw [extract_tag hf hn' hn'']
      refine (hin.tags h n n' hkept hn').imp_right ?_
      intro ⟨p, name, hname, hc, hp⟩
      exact ⟨p, name, hname, hc, hun.vacated hp⟩
  case typedefs =>
    intro h d hd hh
    rcases Nat.lt_or_ge h.index v.graph.size with hlt | hge
    · have hnew : (u.named f.type (mangle outer inner)).graph.size ≤ h.index := by
        rw [hnamed, Graph.size_set]
        exact hh
      obtain ⟨p, name, he, hc, hp⟩ := hin.typedefs h d (hun.old_typedef hlt hd) hnew
      exact ⟨p, name, he, hc, hun.fieldAt?_kept hp rfl⟩
    · have he := extract_new hf hd hge
      rw [he, extract_next hf] at hd
      cases hd
      exact ⟨⟨c, i, f⟩, _, rfl, hcalled, he ▸ hfield⟩

/-- The name made for a field is one that `g` calls its type by. -/
theorem Ready.calls {n : Node} (hr : Ready g rank c outer u) (hf : u.field? c i = some f)
    (hi : f.inline = true) (hn : u.graph.get? f.type = some n) (hb : n.hasBody = true) :
    g.Called (some ⟨c, i, f⟩) f.type (mangle outer (n.tag?.getD f.name)) := by
  obtain ⟨ex, hu⟩ := hr.unnests
  obtain ⟨origin, hcalled⟩ := hr.called
  have hbody : g.HasBody f.type := hu.hasBody.mp ⟨n, hn, hb⟩
  have hplace : ⟨c, i, f⟩ ∈ g.places :=
    Graph.mem_places.mpr ⟨hu.fieldAt?_inline hf hi, hi, hbody⟩
  obtain ⟨n₀, hn₀, _⟩ := hbody
  rcases hr.tags f.type n₀ n hn₀ hn with he | hrank | ⟨q, name, hname, hq, f', hf', hi'⟩
  · have hinner : g.innerName f = n.tag?.getD f.name := by
      simp only [Graph.innerName, hn₀, Option.bind_some, he]
    exact hinner ▸ .first hplace hcalled
  · have hlt := hr.ranked c f.type .refl ⟨inline_of_field hf hi, n, hn, hb⟩
    exact absurd hrank (Nat.not_le.mpr hlt)
  · -- a place that was given up is another one
    have hne : q ≠ ⟨c, i, f⟩ := by
      intro he
      subst he
      have : some f' = some f := hf'.symm.trans hf
      cases this
      rw [hi] at hi'
      cases hi'
    rw [hname]
    exact .again hplace hcalled hne hq

theorem Ready.inside {n : Node} {inner : String} (hr : Ready g rank c outer u)
    (hf : u.field? c i = some f) (hi : f.inline = true) (hn : u.graph.get? f.type = some n)
    (hb : n.hasBody = true)
    (hcalled : g.Called (some ⟨c, i, f⟩) f.type (mangle outer inner)) :
    Ready g rank f.type (mangle outer inner) (u.named f.type (mangle outer inner)) := by
  obtain ⟨ex, hu⟩ := hr.unnests
  have hinline := inline_of_field hf hi
  have hholds : u.graph.Holds c f.type := ⟨hinline, n, hn, hb⟩
  have hun := Graph.setTag_unnests hinline hholds.2 outer inner []
  refine ⟨⟨_, hu.append hun⟩, hun.inRange hr.inRange, hun.rankedBelow (hr.ranked.held hholds),
    ⟨_, hcalled⟩, ?_⟩
  intro h n₀ n' hn₀ hn'
  by_cases hh : h = f.type
  · exact .inr (.inl (hh ▸ Nat.le_refl _))
  · rw [named_graph hn, Graph.get?_set_ne _ hh] at hn'
    rcases hr.tags h n₀ n' hn₀ hn' with he | hrank | ⟨p, name, hname, hc, hp⟩
    · exact .inl he
    · exact .inr (.inl (Nat.le_trans (Nat.le_of_lt (hr.ranked c f.type .refl hholds)) hrank))
    · exact .inr (.inr ⟨p, name, hname, hc, hun.vacated hp⟩)

/-- Unnesting an inner type calls types by what `g` calls them. -/
def Calls (g : Graph) (rank : Handle → Nat)
    (inside : Handle → String → Unnesting → Except Fault Unnesting) (k : Handle) : Prop :=
  ∀ name u v, Ready g rank k name u → inside k name u = .ok v → g.Renames u.graph v.graph

theorem field_renames {inside : Handle → String → Unnesting → Except Fault Unnesting}
    (hinside : ∀ k, rank k < rank c → Unnests rank inside k ∧ Calls g rank inside k)
    (hr : Ready g rank c outer u) (h : field inside c outer u i = .ok v) :
    g.Renames u.graph v.graph := by
  rcases field_ok h with ⟨rfl, _⟩ | ⟨f, n, name, w, hf, hi, hn, hb, rfl, rfl, hw⟩
  · exact .refl ..
  · have hcalled := hr.calls hf hi hn hb
    have hready := hr.inside hf hi hn hb hcalled
    have hbody : u.graph.HasBody f.type := ⟨n, hn, hb⟩
    have hlt := hr.ranked c f.type .refl ⟨inline_of_field hf hi, hbody⟩
    have hfield : (u.named f.type (mangle outer (n.tag?.getD f.name))).field? c i = some f :=
      (field?_named ..).trans hf
    rcases hw with hw | ⟨rfl, _⟩
    · obtain ⟨hruns, hcalls⟩ := hinside f.type hlt
      obtain ⟨w', hw', hin, _⟩ := hruns _ _ hready.inRange hready.ranked
      rw [hw] at hw'
      cases hw'
      exact extract_renames (field?_outside hin hfield hlt) hi hbody hin.steps hcalled
        (hcalls _ _ _ hready hw)
    · exact extract_renames hfield hi hbody .refl hcalled (.refl ..)

theorem fields_rename {inside : Handle → String → Unnesting → Except Fault Unnesting}
    (hinside : ∀ k, rank k < rank c → Unnests rank inside k ∧ Calls g rank inside k)
    (is : List Nat) (hr : Ready g rank c outer u)
    (h : is.foldlM (field inside c outer) u = .ok v) : g.Renames u.graph v.graph := by
  have hruns (k : Handle) (hk : rank k < rank c) := (hinside k hk).1
  have hkeeps := foldlM_keeps (P := fun w => Inside rank c u w ∧ g.Renames u.graph w.graph) is ?_
    ⟨.refl u, .refl ..⟩ h
  · exact hkeeps.2
  · intro i _ w w' ⟨hin, hrenames⟩ hw
    have hready := hr.after hin hrenames
    have hnext := field_renames hinside hready hw
    obtain ⟨w'', hw'', hin', _⟩ := field_runs hruns outer i hready.inRange hready.ranked
    rw [hw] at hw''
    cases hw''
    exact ⟨hin.trans hin', hrenames.trans hnext hin.steps.unnests hin'.steps.unnests⟩

theorem container_calls (n : Nat) : ∀ c, rank c < n → Calls g rank (container n) c := by
  induction n with
  | zero => exact fun c hc => absurd hc (Nat.not_lt_zero _)
  | succ n ih =>
    intro c hc name u v hr h
    have hinside (k : Handle) (hk : rank k < rank c) :
        Unnests rank (container n) k ∧ Calls g rank (container n) k := by
      have hlt : rank k < n := Nat.lt_of_lt_of_le hk (Nat.lt_succ_iff.mp hc)
      exact ⟨container_runs n k hlt, ih k hlt⟩
    exact fields_rename hinside _ hr h

/-! ## Item by item -/

theorem called_root {ex : List Handle} {item : Handle} (hg : g.InRange)
    (hitem : item ∈ g.module.items) (hlt : item.index < g.size) (hu : g.Unnests u.graph ex)
    (hr : g.Renames g u.graph) (h : u.graph.root? item = .ok (some (c, outer))) :
    ∃ origin, g.Called origin c outer := by
  obtain ⟨kind, body', hbody', hroot⟩ := Graph.root?_eq_some.mp h
  have hc : c.index < g.size := by
    rcases hroot with ⟨he, _⟩ | ⟨d, hd, htarget, _⟩
    · exact he ▸ hlt
    · exact hg item _ (hu.old_typedef hlt hd) c (by simp [Node.children, htarget])
  obtain ⟨n, hn⟩ := Graph.get?_of_lt hc
  rcases hr.tags c n _ hn hbody' with he | ⟨p, name, hname, hcalled, _⟩
  · obtain ⟨n', hn', hnn⟩ := hu.nodes c n hn
    rw [hbody'] at hn'
    cases hn'
    have hbody : ∃ body, n = .container kind body := by
      cases hnn with
      | same => exact ⟨_, rfl⟩
      | container => exact ⟨_, rfl⟩
    obtain ⟨body, rfl⟩ := hbody
    have he : body'.tag = body.tag := he
    rw [he] at hroot
    have hold : g.root? item = .ok (some (c, outer)) := by
      refine Graph.root?_eq_some.mpr ⟨kind, body, hn, hroot.imp_right ?_⟩
      intro ⟨d, hd, hrest⟩
      exact ⟨d, hu.old_typedef hlt hd, hrest⟩
    exact ⟨none, .root (List.mem_filterMap.mpr ⟨item, hitem, by rw [hold]; rfl⟩)⟩
  · have hname : body'.tag = some name := hname
    have he : name = outer := by
      rcases hroot with ⟨_, ht⟩ | ⟨d, _, _, ht⟩
      · rw [hname] at ht
        exact Option.some.inj ht
      · rw [hname] at ht
        exact ht
    exact ⟨some p, he ▸ hcalled⟩

theorem unnestStep_renames {m m' : Unnesting} {ex : List Handle} {item : Handle} (hg : g.InRange)
    (hitem : item ∈ g.module.items) (hlt : item.index < g.size) (hu : g.Unnests m.graph ex)
    (hr : g.Renames g m.graph) (h : Graph.unnestStep m item = .ok m') :
    g.Renames g m'.graph := by
  have hin := hu.inRange hg
  rcases unnestStep_ok h with ⟨_, rfl⟩ | ⟨c, outer, w, _, hroot, hw, rfl⟩
  · exact hr
  · obtain ⟨hdrains, hflat⟩ := container_empties _ _ _ _ _ hw
    have hranked : m.graph.RankedBelow m.graph.inside c :=
      (hdrains.bottoms_of_flat hflat).rankedBelow
    have hready : Ready g m.graph.inside c outer ⟨m.graph, [], m.stats⟩ :=
      ⟨⟨ex, hu⟩, hin, hranked, called_root hg hitem hlt hu hr hroot,
        fun h n n' hn hn' => (hr.tags h n n' hn hn').imp_right .inr⟩
    have hrank : m.graph.inside c < m.graph.size + 1 := Nat.lt_succ_of_le (m.graph.inside_le c)
    obtain ⟨w', hw', hinside, _⟩ :=
      container_runs _ c hrank outer ⟨m.graph, [], m.stats⟩ hin hranked
    rw [hw] at hw'
    cases hw'
    have hcalls : g.Renames m.graph w.graph :=
      container_calls _ c hrank outer ⟨m.graph, [], m.stats⟩ w hready hw
    have hrenames := hr.trans hcalls hu hinside.steps.unnests
    exact ⟨hrenames.tags, hrenames.typedefs⟩

end Unnesting

/-- Unnesting names all types after what is around them. -/
theorem Graph.unnest_renames {g g' : Graph} {stats : UnnestStats} (hg : g.InRange)
    (hi : ∀ h ∈ g.module.items, h.index < g.size) (h : g.unnest = .ok (g', stats)) :
    g.Renames g g' := by
  obtain ⟨m, hm, h⟩ := exists_of_bind h
  cases h
  have hkeeps := foldlM_keeps (P := fun m => (∃ ex, g.Unnests m.graph ex) ∧ g.Renames g m.graph)
    g.module.items ?_ ⟨⟨[], .refl g []⟩, .refl g g⟩ hm
  · exact hkeeps.2
  · intro item hitem m m' ⟨⟨ex, hu⟩, hr⟩ hm'
    have hlt := hi item hitem
    have hpass := Unnesting.unnestStep_ends (hu.inRange hg) (Nat.lt_of_lt_of_le hlt hu.size) hm'
    exact ⟨⟨_, hu.append hpass.unnests.2⟩, Unnesting.unnestStep_renames hg hitem hlt hu hr hm'⟩

end CythonDecls
