import CythonDecls.Proofs.Unnest.Mangled
import CythonDecls.Translation.Walk

/-!
# Names that unnesting makes up

An extracted type is called after what it was inside of, whatever names there
are already. Names that were distinct before only clash in the end where one of
them was made up. They do clash: the parts of a mangled name cannot be told
apart when the inner one has underscores of its own. Where it has none, the
parts can be read off from the right, and no two made-up names are the same.
-/

namespace CythonDecls

/-! ## The parts of a mangled name -/

theorem Unnesting.toList_mangle (outer inner : String) :
    (mangle outer inner).toList = '_' :: '_' :: (outer.toList ++ '_' :: inner.toList) := by
  simp [mangle, toString]

theorem Unnesting.mangle_injective {outer inner outer' inner' : String}
    (h : mangle outer inner = mangle outer' inner') (hi : '_' ∉ inner.toList)
    (hi' : '_' ∉ inner'.toList) : outer = outer' ∧ inner = inner' := by
  have hl := congrArg String.toList h
  simp only [toList_mangle, List.cons.injEq, true_and] at hl
  have hinner (outer inner : List Char) (hi : '_' ∉ inner) :
      (outer ++ '_' :: inner).reverse.takeWhile (· ≠ '_') = inner.reverse := by
    have hall : ∀ c ∈ inner.reverse, (decide (c ≠ '_')) = true := by
      intro c hc
      rw [List.mem_reverse] at hc
      simpa using ne_of_mem_of_not_mem hc hi
    rw [List.reverse_append, List.reverse_cons, List.append_assoc,
      List.takeWhile_append_of_pos hall]
    simp
  have he : inner.toList.reverse = inner'.toList.reverse := by
    rw [← hinner outer.toList _ hi, hl, hinner outer'.toList _ hi']
  have he : inner.toList = inner'.toList := List.reverse_injective he
  rw [he] at hl
  exact ⟨String.toList_injective (List.append_cancel_right hl), String.toList_injective he⟩

namespace Graph

/-- No two nodes have the same name. -/
def Distinct (g : Graph) (name? : Node → Option String) : Prop :=
  ∀ h n, g.get? h = some n → ∀ k m, g.get? k = some m →
    (name? n).isSome = true → name? n = name? m → h = k

instance (g : Graph) (name? : Node → Option String) : Decidable (g.Distinct name?) :=
  have (h : Handle) (n : Node) : Decidable (∀ k m, g.get? k = some m →
      (name? n).isSome = true → name? n = name? m → h = k) :=
    decidable_of_iff _ (g.forall_get?_iff fun k m =>
      (name? n).isSome = true → name? n = name? m → h = k).symm
  decidable_of_iff _ (g.forall_get?_iff fun h n => ∀ k m, g.get? k = some m →
    (name? n).isSome = true → name? n = name? m → h = k).symm

def typedefName? (n : Node) : Option String := n.typedef?.map (·.name)

/-- A name that starts like the made-up ones. -/
def reserved (name : String) : Bool := ['_', '_'].isPrefixOf name.toList

theorem reserved_mangle (outer inner behind : String) :
    reserved (Unnesting.mangle outer inner ++ behind) = true := by
  simp [reserved, Unnesting.toList_mangle]

/-- Nothing is called like something else by chance: inner names can be read off from the
right, and each stands once in its container. -/
structure PlainNames (g : Graph) : Prop where
  tags : ∀ n ∈ g.nodes.toList, ∀ tag ∈ n.tag?, reserved tag = false
  typedefs : ∀ n ∈ g.nodes.toList, ∀ name ∈ typedefName? n, reserved name = false
  roots : ∀ r ∈ g.roots, ∀ s ∈ g.roots, r.2 = s.2 → r.1 = s.1
  inner : ∀ p ∈ g.places, '_' ∉ (g.innerName p.field).toList
  fields : ∀ p ∈ g.places, ∀ q ∈ g.places, p.container = q.container →
    g.innerName p.field = g.innerName q.field → p = q
  types : ∀ p ∈ g.places, ∀ q ∈ g.places, p.field.type = q.field.type → p = q

instance (g : Graph) : Decidable g.PlainNames :=
  decidable_of_iff ((∀ n ∈ g.nodes.toList, ∀ tag ∈ n.tag?, reserved tag = false) ∧
    (∀ n ∈ g.nodes.toList, ∀ name ∈ typedefName? n, reserved name = false) ∧
    (∀ r ∈ g.roots, ∀ s ∈ g.roots, r.2 = s.2 → r.1 = s.1) ∧
    (∀ p ∈ g.places, '_' ∉ (g.innerName p.field).toList) ∧
    (∀ p ∈ g.places, ∀ q ∈ g.places, p.container = q.container →
      g.innerName p.field = g.innerName q.field → p = q) ∧
    ∀ p ∈ g.places, ∀ q ∈ g.places, p.field.type = q.field.type → p = q) (by
      constructor
      · intro ⟨tags, typedefs, roots, inner, fields, types⟩
        exact ⟨tags, typedefs, roots, inner, fields, types⟩
      · intro ⟨tags, typedefs, roots, inner, fields, types⟩
        exact ⟨tags, typedefs, roots, inner, fields, types⟩)

section
variable {g g' : Graph} {ex : List Handle} {h k : Handle} {p : Place}

theorem mem_nodes {n : Node} (hn : g.get? h = some n) : n ∈ g.nodes.toList :=
  Array.mem_toList_iff.mpr (Array.mem_of_getElem? hn)

theorem PlainNames.root (hp : g.PlainNames) {name : String} (h : (k, name) ∈ g.roots) :
    reserved name = false := by
  obtain ⟨item, _, hroot⟩ := List.mem_filterMap.mp h
  have hroot : g.root? item = .ok (some (k, name)) := by
    cases hr : g.root? item with
    | error e => simp [hr, Except.toOption] at hroot
    | ok root => simpa [hr, Except.toOption] using hroot
  obtain ⟨kind, body, hbody, hitem⟩ := root?_eq_some.mp hroot
  have htag := hp.tags _ (mem_nodes hbody)
  rcases hitem with ⟨_, ht⟩ | ⟨d, hd, _, ht⟩
  · exact htag name ht
  · cases hbt : body.tag with
    | none =>
      rw [hbt] at ht
      exact ht ▸ hp.typedefs _ (mem_nodes hd) d.name rfl
    | some tag =>
      rw [hbt] at ht
      exact ht ▸ htag tag hbt

theorem PlainNames.first (hp : g.PlainNames) {name : String} (hc : g.Called (some p) k name) :
    ∃ outer origin, g.Called origin p.container outer ∧
      name = Unnesting.mangle outer (g.innerName p.field) := by
  cases hc with
  | first place around => exact ⟨_, _, around, rfl⟩
  | again place around other before =>
    obtain ⟨hq, he⟩ := before.type _ rfl
    exact absurd (hp.types _ hq _ place he) other

theorem PlainNames.reserved_called (hp : g.PlainNames) {name : String}
    (hc : g.Called (some p) k name) (behind : String) : reserved (name ++ behind) = true := by
  obtain ⟨outer, _, _, rfl⟩ := hp.first hc
  exact reserved_mangle ..

theorem PlainNames.not_root (hp : g.PlainNames) {name : String} (hc : g.Called (some p) h name) :
    (k, name) ∉ g.roots := by
  intro hroot
  have hreserved := hp.reserved_called hc ""
  rw [String.append_empty, hp.root hroot] at hreserved
  cases hreserved

/-- Plain names tell apart what is called by them. -/
theorem PlainNames.unique (hp : g.PlainNames) {origin : Option Place} {name : String}
    (hc : g.Called origin h name) :
    ∀ {origin' k}, g.Called origin' k name → origin = origin' ∧ h = k := by
  induction hc with
  | root hroot =>
    intro origin' k hc'
    cases origin' with
    | none =>
      cases hc' with
      | root hroot' => exact ⟨rfl, hp.roots _ hroot _ hroot' rfl⟩
    | some q => exact absurd hroot (hp.not_root hc')
  | @first p origin outer place around ih =>
    intro origin' k hc'
    have hc := Called.first place around
    cases origin' with
    | none =>
      generalize hname : Unnesting.mangle outer (g.innerName p.field) = name at hc hc'
      cases hc' with
      | root hroot' => exact absurd hroot' (hp.not_root hc)
    | some q =>
      obtain ⟨hq, he⟩ := hc'.type q rfl
      obtain ⟨outer', origin', around', hname⟩ := hp.first hc'
      obtain ⟨rfl, hinner⟩ := Unnesting.mangle_injective hname (hp.inner p place) (hp.inner q hq)
      have hsame := hp.fields p place q hq (ih around').2 hinner
      exact ⟨congrArg some hsame, hsame ▸ he⟩
  | again place around other before =>
    obtain ⟨hq, he⟩ := before.type _ rfl
    exact absurd (hp.types _ hq _ place he) other

/-! ## Clashes -/

theorem Renames.tag_origin (hr : g.Renames g g') (hu : g.Unnests g' ex) {n' : Node}
    (hn' : g'.get? h = some n') (ht : n'.tag?.isSome = true) :
    (∃ n, g.get? h = some n ∧ n'.tag? = n.tag?) ∨
      ∃ p name, n'.tag? = some name ∧ g.Called (some p) h name := by
  rcases Nat.lt_or_ge h.index g.size with hlt | hge
  · obtain ⟨n, hn⟩ := get?_of_lt hlt
    rcases hr.tags h n n' hn hn' with he | ⟨p, name, hname, hc, _⟩
    · exact .inl ⟨n, hn, he⟩
    · exact .inr ⟨p, name, hname, hc⟩
  · obtain ⟨_, _, _, rfl, _⟩ := hu.fresh h n' hn' hge
    cases ht

theorem Renames.tags_clash (hr : g.Renames g g') (hu : g.Unnests g' ex)
    (hd : g.Distinct Node.tag?) (hne : h ≠ k) {n m : Node} (hn : g'.get? h = some n)
    (hm : g'.get? k = some m) (ht : n.tag?.isSome = true) (he : n.tag? = m.tag?) :
    ∃ p name, n.tag? = some name ∧ (g.Called (some p) h name ∨ g.Called (some p) k name) := by
  rcases hr.tag_origin hu hn ht with ⟨n₀, hn₀, hn₀t⟩ | ⟨p, name, hname, hc⟩
  · rcases hr.tag_origin hu hm (he ▸ ht) with ⟨m₀, hm₀, hm₀t⟩ | ⟨p, name, hname, hc⟩
    · have he₀ : n₀.tag? = m₀.tag? := hn₀t ▸ he.trans hm₀t
      exact absurd (hd h n₀ hn₀ k m₀ hm₀ (hn₀t ▸ ht) he₀) hne
    · exact ⟨p, name, he ▸ hname, .inr hc⟩
  · exact ⟨p, name, hname, .inl hc⟩

theorem Renames.typedefs_clash (hr : g.Renames g g') (hu : g.Unnests g' ex)
    (hg : g.Distinct typedefName?) (hne : h ≠ k) {d e : Typedef}
    (hd : g'.get? h = some (.typedef d)) (he : g'.get? k = some (.typedef e))
    (hname : d.name = e.name) : ∃ p name, d.name = name ++ "_t" ∧
      g.Called (some p) p.field.type name ∧ (g.size ≤ h.index ∨ g.size ≤ k.index) := by
  rcases Nat.lt_or_ge h.index g.size with hh | hh
  · rcases Nat.lt_or_ge k.index g.size with hk | hk
    · exact absurd (hg h _ (hu.old_typedef hh hd) k _ (hu.old_typedef hk he) rfl
        (congrArg some hname)) hne
    · obtain ⟨p, name, rfl, hc, _⟩ := hr.typedefs k e he hk
      exact ⟨p, name, hname, hc, .inr hk⟩
  · obtain ⟨p, name, rfl, hc, _⟩ := hr.typedefs h d hd hh
    exact ⟨p, name, rfl, hc, .inl hh⟩

theorem PlainNames.tag_ne (hp : g.PlainNames) {n : Node} {name : String}
    (hn : g.get? h = some n) (hc : g.Called (some p) k name) : n.tag? ≠ some name := by
  intro ht
  have hreserved := hp.reserved_called hc ""
  rw [String.append_empty, hp.tags n (mem_nodes hn) name ht] at hreserved
  cases hreserved

theorem PlainNames.distinct_tags (hp : g.PlainNames) (hr : g.Renames g g') (hu : g.Unnests g' ex)
    (hd : g.Distinct Node.tag?) : g'.Distinct Node.tag? := by
  intro h n hn k m hm ht he
  rcases hr.tag_origin hu hn ht with ⟨n₀, hn₀, hn₀t⟩ | ⟨p, name, hname, hc⟩
  · rcases hr.tag_origin hu hm (he ▸ ht) with ⟨m₀, hm₀, hm₀t⟩ | ⟨q, name, hname, hc⟩
    · have he₀ : n₀.tag? = m₀.tag? := hn₀t ▸ he.trans hm₀t
      exact hd h n₀ hn₀ k m₀ hm₀ (hn₀t ▸ ht) he₀
    · exact absurd (hn₀t.symm.trans (he.trans hname)) (hp.tag_ne hn₀ hc)
  · rw [hname] at he
    rcases hr.tag_origin hu hm (he ▸ rfl) with ⟨m₀, hm₀, hm₀t⟩ | ⟨q, name', hname', hc'⟩
    · exact absurd (hm₀t.symm.trans he.symm) (hp.tag_ne hm₀ hc)
    · rw [hname', Option.some.injEq] at he
      exact (hp.unique hc (he ▸ hc')).2

theorem PlainNames.name_ne (hp : g.PlainNames) {d : Typedef} {name : String}
    (hd : g.get? h = some (.typedef d)) (hc : g.Called (some p) k name) :
    d.name ≠ name ++ "_t" := by
  intro he
  have hreserved := hp.reserved_called hc "_t"
  rw [← he, hp.typedefs _ (mem_nodes hd) d.name rfl] at hreserved
  cases hreserved

theorem PlainNames.distinct_typedefs (hp : g.PlainNames) (hr : g.Renames g g')
    (hu : g.Unnests g' ex) (hd : g.Distinct typedefName?) : g'.Distinct typedefName? := by
  intro h n hn k m hm ht he
  have hnode {n : Node} (ht : (typedefName? n).isSome = true) : ∃ d, n = .typedef d := by
    cases n with
    | typedef d => exact ⟨d, rfl⟩
    | _ => cases ht
  obtain ⟨d, rfl⟩ := hnode ht
  obtain ⟨e, rfl⟩ := hnode (he ▸ ht)
  have he : d.name = e.name := Option.some.inj he
  rcases Nat.lt_or_ge h.index g.size with hh | hh
  · have hold := hu.old_typedef hh hn
    rcases Nat.lt_or_ge k.index g.size with hk | hk
    · exact hd h _ hold k _ (hu.old_typedef hk hm) rfl (congrArg some he)
    · obtain ⟨p, name, rfl, hc, _⟩ := hr.typedefs k e hm hk
      exact absurd he (hp.name_ne hold hc)
  · obtain ⟨p, name, rfl, hc, hfield⟩ := hr.typedefs h d hn hh
    rcases Nat.lt_or_ge k.index g.size with hk | hk
    · exact absurd he.symm (hp.name_ne (hu.old_typedef hk hm) hc)
    · obtain ⟨q, name', rfl, hc', hfield'⟩ := hr.typedefs k e hm hk
      have hname : name = name' := by simpa using he
      obtain ⟨hpq, _⟩ := hp.unique hc (hname ▸ hc')
      -- the field at the one place has one type
      cases hpq
      rw [hfield] at hfield'
      exact congrArg Field.type (Option.some.inj hfield')

end

/-- Unnesting calls what it extracts after what is around it and after its tag or field, and
the new typedefs after that. Two aggregates only share a tag and two typedefs a name that
was made up so. Where names are plain, none are shared. -/
theorem unnest_clashes {g g' : Graph} {stats : UnnestStats} (hg : g.InRange)
    (hi : ∀ h ∈ g.module.items, h.index < g.size) (h : g.unnest = .ok (g', stats))
    (htags : g.Distinct Node.tag?) (htypedefs : g.Distinct typedefName?) :
    g.Renames g g' ∧
      (∀ h k n m, h ≠ k → g'.get? h = some n → g'.get? k = some m → n.tag?.isSome = true →
        n.tag? = m.tag? → ∃ p name, n.tag? = some name ∧
          (g.Called (some p) h name ∨ g.Called (some p) k name)) ∧
      (∀ h k d e, h ≠ k → g'.get? h = some (.typedef d) → g'.get? k = some (.typedef e) →
        d.name = e.name → ∃ p name, d.name = name ++ "_t" ∧
          g.Called (some p) p.field.type name ∧ (g.size ≤ h.index ∨ g.size ≤ k.index)) ∧
      (g.PlainNames → g'.Distinct Node.tag? ∧ g'.Distinct typedefName?) := by
  obtain ⟨m, hrun, rfl, _⟩ := Unnesting.unnest_ends hg hi h
  have hu : g.Unnests m.graph m.extracted := hrun.unnests.2
  have hr : g.Renames g m.graph := unnest_renames hg hi h
  refine ⟨hr, ?_, ?_, ?_⟩
  · intro h k n m hne hn hm ht he
    exact hr.tags_clash hu htags hne hn hm ht he
  · intro h k d e hne hd he hname
    exact hr.typedefs_clash hu htypedefs hne hd he hname
  · intro hp
    exact ⟨hp.distinct_tags hr hu htags, hp.distinct_typedefs hr hu htypedefs⟩

namespace Sample

def titledName : TypedefDecl := ⟨"T", .container .struct (.body none
  [.named "w" (.container .struct (.body none [.named "z" (.word "int")]))]), none⟩

/-- `struct A { struct { struct deep { int x; } in; } b; enum { RED } c; };` and
`typedef struct { struct { int z; } w; } T;`. -/
def layered : SourceUnit := ⟨"layered.h",
  [.container .struct (.body (some "A")
    [.named "b" (.container .struct (.body none
      [.named "in" (.container .struct (.body (some "deep") [.named "x" (.word "int")]))])),
    .named "c" (.enumeration ⟨none, some [⟨"RED", none, none⟩], none⟩)]),
  .typedef titledName]⟩

end Sample

theorem unnest_clashes_layered : ∃ g g' stats, Sample.layered.translate = .ok g ∧ g.InRange ∧
    (∀ h ∈ g.module.items, h.index < g.size) ∧ g.unnest = .ok (g', stats) ∧
    g.Distinct Node.tag? ∧ g.Distinct typedefName? ∧ g.PlainNames ∧
    g'.nodes.toList.filterMap Node.tag? = ["A", "__A_b", "____A_b_deep", "__A_c", "__T_w"] ∧
    g'.nodes.toList.filterMap typedefName? =
      ["T", "____A_b_deep_t", "__A_b_t", "__A_c_t", "__T_w_t"] ∧
    g.Renames g g' ∧
      (∀ h k n m, h ≠ k → g'.get? h = some n → g'.get? k = some m → n.tag?.isSome = true →
        n.tag? = m.tag? → ∃ p name, n.tag? = some name ∧
          (g.Called (some p) h name ∨ g.Called (some p) k name)) ∧
      (∀ h k d e, h ≠ k → g'.get? h = some (.typedef d) → g'.get? k = some (.typedef e) →
        d.name = e.name → ∃ p name, d.name = name ++ "_t" ∧
          g.Called (some p) p.field.type name ∧ (g.size ≤ h.index ∨ g.size ≤ k.index)) ∧
      g'.Distinct Node.tag? ∧ g'.Distinct typedefName? := by
  have h : ∃ g ∈ Sample.layered.translate.toOption, g.InRange ∧
      (∀ h ∈ g.module.items, h.index < g.size) ∧ g.Distinct Node.tag? ∧ g.Distinct typedefName? ∧
      g.PlainNames ∧ ∃ r ∈ g.unnest.toOption,
        r.1.nodes.toList.filterMap Node.tag? = ["A", "__A_b", "____A_b_deep", "__A_c", "__T_w"] ∧
        r.1.nodes.toList.filterMap typedefName? =
          ["T", "____A_b_deep_t", "__A_b_t", "__A_c_t", "__T_w_t"] := by decide +kernel
  obtain ⟨g, hg, hrange, hitems, htags, htypedefs, hplain, r, hr, hnames⟩ := h
  have hrun : g.unnest = .ok (r.1, r.2) := eq_ok_of_mem_toOption hr
  obtain ⟨hrenames, htag, htypedef, hdistinct⟩ :=
    unnest_clashes hrange hitems hrun htags htypedefs
  exact ⟨g, r.1, r.2, eq_ok_of_mem_toOption hg, hrange, hitems, hrun, htags, htypedefs, hplain,
    hnames.1, hnames.2, hrenames, htag, htypedef, hdistinct hplain⟩

namespace Sample

/-- A struct of one field, which is a struct of one field without a tag. -/
def holding (tag field : String) : Item := .container .struct (.body (some tag)
  [.named field (.container .struct (.body none [.named "x" (.word "int")]))])

/-- `struct A { struct { int x; } b_c; }` and `struct A_b { struct { int x; } c; }`. -/
def underscores : SourceUnit := ⟨"names.h", [holding "A" "b_c", holding "A_b" "c"]⟩

end Sample

/-- Both inner types become `__A_b_c`, and both typedefs `__A_b_c_t`. -/
theorem underscores_clash : ∃ g, Sample.underscores.translate = .ok g ∧ g.Distinct Node.tag? ∧
    g.Distinct typedefName? ∧ ∃ g' stats, g.unnest = .ok (g', stats) ∧
      g'.nodes.toList.filterMap Node.tag? = ["A", "__A_b_c", "A_b", "__A_b_c"] ∧
      g'.nodes.toList.filterMap typedefName? = ["__A_b_c_t", "__A_b_c_t"] ∧
      ¬g'.Distinct Node.tag? ∧ ¬g'.Distinct typedefName? := by
  have h : ∃ g ∈ Sample.underscores.translate.toOption, g.Distinct Node.tag? ∧
      g.Distinct typedefName? ∧ ∃ r ∈ g.unnest.toOption,
        r.1.nodes.toList.filterMap Node.tag? = ["A", "__A_b_c", "A_b", "__A_b_c"] ∧
        r.1.nodes.toList.filterMap typedefName? = ["__A_b_c_t", "__A_b_c_t"] ∧
        ¬r.1.Distinct Node.tag? ∧ ¬r.1.Distinct typedefName? := by decide +kernel
  obtain ⟨g, hg, htags, htypedefs, r, hr, hclash⟩ := h
  exact ⟨g, eq_ok_of_mem_toOption hg, htags, htypedefs, r.1, r.2, eq_ok_of_mem_toOption hr, hclash⟩

end Graph

end CythonDecls
