import CythonDecls.Proofs.Translation.SessionErrors

/-!
# Items that come again

An item whose name or tag is in a table finds its node there when it comes
again. Variables have no table, nor do aggregates without a tag: every
declaration of one is another item.
-/

namespace CythonDecls

/-! ## More typedefs, fewer obstacles -/

section
variable {typedefs later : List String} (hsub : typedefs ⊆ later)
include hsub

theorem isResolvable_mono {words : List String} (h : isResolvable typedefs words = true) :
    isResolvable later words = true := by
  unfold isResolvable at h ⊢
  rw [Bool.or_eq_true] at h ⊢
  refine h.imp_left fun h => ?_
  split at h
  · exact List.contains_iff_mem.mpr (hsub (List.contains_iff_mem.mp h))
  · cases h

theorem obstacles_sublist :
    (∀ spot (ty : TypeExpr), (ty.obstacles later spot).Sublist (ty.obstacles typedefs spot)) ∧
    (∀ name location (sig : Signature), (sig.obstacles later name location).Sublist
      (sig.obstacles typedefs name location)) ∧
    (∀ function here ds, (obstaclesOfParams later function here ds).Sublist
      (obstaclesOfParams typedefs function here ds)) ∧
    (∀ kind made (spec : ContainerSpec), (spec.obstacles later kind made).Sublist
      (spec.obstacles typedefs kind made)) ∧
    (∀ kind tag ms, (obstaclesOfMembers later kind tag ms).Sublist
      (obstaclesOfMembers typedefs kind tag ms)) := by
  refine TypeExpr.obstacles.mutual_induct typedefs _ _ _ _ _ ?pointer ?array ?known ?unknown
    ?container ?enumeration ?function ?reference ?body ?signature ?noArgument ?argument ?noMember
    ?ignored ?named ?spliced ?unnamed ?unnamedEnum ?skipped
  case pointer =>
    intro spot target ih
    unfold TypeExpr.obstacles
    exact ih
  case array =>
    intro spot target dim ih
    unfold TypeExpr.obstacles
    exact ih
  case known =>
    intro spot words h
    unfold TypeExpr.obstacles
    rw [if_pos h, if_pos (isResolvable_mono hsub h)]
  case unknown =>
    intro spot words h
    unfold TypeExpr.obstacles
    rw [if_neg h]
    split
    · exact List.nil_sublist _
    · exact .refl _
  case container =>
    intro spot kind spec ih
    unfold TypeExpr.obstacles
    exact ih
  case enumeration =>
    intro spot spec
    unfold TypeExpr.obstacles
    exact .refl _
  case function =>
    intro spot sig ih
    unfold TypeExpr.obstacles
    exact ih
  case reference =>
    intro kind made tag location
    unfold ContainerSpec.obstacles
    exact .refl _
  case body =>
    intro kind made tag ms location ih
    unfold ContainerSpec.obstacles
    exact ih
  case signature =>
    intro name location returns params variadic ihr ihp
    unfold Signature.obstacles
    exact ihr.append ihp
  case noArgument =>
    intro function here
    unfold obstaclesOfParams
    exact .refl _
  case argument =>
    intro function here name type location ds iht ihd
    unfold obstaclesOfParams
    exact iht.append ihd
  case noMember =>
    intro kind tag
    unfold obstaclesOfMembers
    exact .refl _
  case ignored =>
    intro kind tag what ms ih
    unfold obstaclesOfMembers
    exact ih
  case named =>
    intro kind tag name type location ms iht ihm
    unfold obstaclesOfMembers
    exact (iht.map _).append ihm
  case spliced =>
    intro kind tag inner members place location ms ihc ihm
    unfold obstaclesOfMembers
    exact ihc.append ihm
  case unnamed =>
    intro kind tag inner spec location ms hne iht ihm
    rw [obstaclesOfMembers_alone (.container hne), obstaclesOfMembers_alone (.container hne)]
    exact iht.append ihm
  case unnamedEnum =>
    intro kind tag spec location ms ihm
    unfold obstaclesOfMembers
    exact .append (.refl _) ihm
  case skipped =>
    intro kind tag type location ms _ hc he ihm
    rw [obstaclesOfMembers_passed (.unnamed hc he), obstaclesOfMembers_passed (.unnamed hc he)]
    exact ihm

end

theorem Known.after_typedefs (known : Known) (i : Item) :
    known.typedefs ⊆ (known.after i).typedefs := by
  unfold after
  split
  · exact List.subset_cons_self _ _
  · split <;> exact List.Subset.refl _
  · exact List.Subset.refl _

theorem Known.read_typedefs (is : List Item) : ∀ known : Known,
    known.typedefs ⊆ (known.read is).2.typedefs := by
  induction is with
  | nil => exact fun _ => List.Subset.refl _
  | cons i is ih =>
    intro known
    unfold read
    split
    · exact known.after_typedefs i
    · exact List.Subset.trans (known.after_typedefs i) (ih _)

/-- Each item of a unit that is read to its end had no obstacle when its turn came. -/
theorem Known.read_none {is : List Item} {i : Item} (hi : i ∈ is) : ∀ {known : Known},
    (known.read is).1 = Option.none → ∃ before : Known, i.obstacles before = [] ∧
      before.typedefs ⊆ (known.read is).2.typedefs := by
  induction is with
  | nil => cases hi
  | cons j is ih =>
    intro known h
    unfold read at h ⊢
    cases hj : j.obstacles known with
    | cons o os =>
      rw [hj] at h
      cases h
    | nil =>
      rw [hj] at h
      rcases List.mem_cons.mp hi with rfl | hi
      · exact ⟨known, hj, List.Subset.trans (known.after_typedefs i) (read_typedefs is _)⟩
      · exact ih hi h

/-! ## Items and tables -/

namespace Item

def reference? : Item → Option (Option ContainerKind × String)
  | .container kind ⟨tag, none, _⟩ => tag.map (some kind, ·)
  | .enumeration ⟨tag, none, _⟩ => tag.map (none, ·)
  | _ => none

def isUnlisted : Item → Bool
  | .declaration ⟨some _, .function _, _⟩ => false
  | .declaration ⟨some _, _, _⟩ => true
  | .container _ spec => spec.tag.isNone
  | .enumeration spec => spec.tag.isNone
  | _ => false

/-- A typedef, a function, or any item in which nothing is written out. -/
def Repeatable (i : Item) : Prop :=
  i.typedefName?.isSome = true ∨ i.functionName?.isSome = true ∨ i.bodies = []

/-- What an item that was read has left in the tables and in the module. -/
structure Settled (i : Item) (t : Translator) : Prop where
  typedef : ∀ name, i.typedefName? = some name →
    ∃ h ∈ t.graph.module.items, t.typedefs.find? name = some h
  function : ∀ name, i.functionName? = some name → t.functions.contains name = true
  reference : ∀ key, i.reference? = some key →
    ∃ h ∈ t.graph.module.items, t.lookup key = some h
  unlisted : i.isUnlisted = true → i.bodies = [] →
    ∃ x ∈ t.graph.module.items, ∃ typedefs, DeclaresAt typedefs t.graph x i

theorem obstacles_unlisted {known later : Known} {i : Item} (hi : i.isUnlisted = true)
    (hsub : known.typedefs ⊆ later.typedefs) : (i.obstacles later).Sublist (i.obstacles known) := by
  cases i with
  | typedef d => cases hi
  | container kind spec => exact (obstacles_sublist hsub).2.2.2.1 kind none spec
  | enumeration spec => exact .refl _
  | declaration d =>
    obtain ⟨_ | name, type, location⟩ := d
    · cases hi
    · cases type with
      | function sig => cases hi
      | _ => exact (obstacles_sublist hsub).1 _ _
  | ignored what => cases hi

theorem defines_of_bodies {i : Item} (hb : i.bodies = []) : i.defines = false := by
  cases i with
  | container kind spec =>
    obtain ⟨tag, _ | ms, location⟩ := spec
    · rfl
    · simp [bodies, ContainerSpec.bodies] at hb
  | enumeration spec =>
    obtain ⟨tag, _ | es, location⟩ := spec
    · rfl
    · cases hb
  | _ => rfl

theorem Repeatable.bodies {i : Item} (h : i.Repeatable) (htd : i.typedefName? = none)
    (hfn : i.functionName? = none) : i.bodies = [] := by
  rcases h with h | h | h
  · rw [htd] at h
    cases h
  · rw [hfn] at h
    cases h
  · exact h

theorem names_of_unlisted {i : Item} (hi : i.isUnlisted = true) :
    i.typedefName? = none ∧ i.functionName? = none := by
  cases i with
  | typedef d => cases hi
  | declaration d =>
    obtain ⟨_ | name, type, location⟩ := d
    · cases hi
    · cases type with
      | function sig => cases hi
      | _ => exact ⟨rfl, rfl⟩
  | _ => exact ⟨rfl, rfl⟩

section
variable {i : Item} {t t' : Translator}

theorem Settled.keep (h : i.Settled t) (e : t.Extends t')
    (hitems : ∀ k ∈ t.graph.module.items, k ∈ t'.graph.module.items) : i.Settled t' where
  typedef name hname := by
    obtain ⟨x, hx, hf⟩ := h.typedef name hname
    exact ⟨x, hitems x hx, e.typedefs name x hf⟩
  function name hname := by
    obtain ⟨f, hf⟩ := Option.isSome_iff_exists.mp (h.function name hname)
    exact Option.isSome_iff_exists.mpr ⟨f, e.functions name f hf⟩
  reference key hkey := by
    obtain ⟨x, hx, hf⟩ := h.reference key hkey
    exact ⟨x, hitems x hx, e.lookup hf⟩
  unlisted hi hb := by
    obtain ⟨x, hx, typedefs, hd⟩ := h.unlisted hi hb
    exact ⟨x, hitems x hx, typedefs, hd.grow e.graph⟩

end

end Item

theorem Entry.Made.fresh {e : Entry} {t t' : Translator} (h : e.Made t t') (hext : t.Extends t')
    (hf : e.Fresh t) (hi : e.item.isUnlisted = true) : t.graph.get? e.node = none := by
  cases hn : t.graph.get? e.node with
  | none => rfl
  | some n =>
    obtain ⟨n', hn', hb⟩ := hext.graph _ _ hn
    have ha : n'.isAggregate = true := hb.isAggregate.trans (hf n hn)
    -- an aggregate with no tag gets a node at the end of the graph
    have hkeyed : e.item.key? = none → e.item.Aggregate t'.graph e.node e.node → False := by
      intro hkey hself
      rcases (h.keyed e.node hself).origin with hle | ⟨key, hsome, _⟩
      · exact absurd (Graph.lt_of_get? hn) (Nat.not_lt.mpr hle)
      · rw [hkey] at hsome
        cases hsome
    rcases Item.aggregate_of_sorts (h.declares.sorts hn') ha with ⟨kind, spec, he⟩ | ⟨spec, he⟩
    · rw [he] at hkeyed hi
      have htag : spec.tag = none := Option.isNone_iff_eq_none.mp hi
      exact (hkeyed (by simp [Item.key?, htag]) rfl).elim
    · rw [he] at hkeyed hi
      have htag : spec.tag = none := Option.isNone_iff_eq_none.mp hi
      exact (hkeyed (by simp [Item.key?, htag]) rfl).elim

namespace Walk

open Translator

section
variable {t : Translator}

theorem place_again {x : Handle} (hh : t.hoisted = []) (hx : x ∈ t.graph.module.items) :
    (place x).run t = (.ok ⟨⟩, t) := by
  rw [place_run, placedState_of_mem hh hx]

theorem openNode_found (sort : Option ContainerKind) (tag : String) (location : Option Location) :
    Ensures t (openNode sort (some tag) none location) fun h t' => t'.lookup (sort, tag) = some h :=
  .of_gives (openNode_gives sort (some tag) none location) fun _ _ o => o.lookup

end

section
variable {t : Translator} (s : t.Sound)
include s

/-! ## The first time -/

theorem typedef_found (d : TypedefDecl) :
    Ensures t (typedef d) fun h t' => t'.typedefs.find? d.name = some h := by
  cases hf : t.typedefs.find? d.name with
  | some h => exact .of_run (v := Pure.pure h) (typedef_known d hf) (.pure hf)
  | none =>
    refine (typedef_target s d hf).weaken ?_
    rintro h t' ⟨rfl, target, t₁, _, hrun, _, _, _, rfl⟩
    obtain ⟨_, e, _⟩ := (resolve_leads (s.withTypedef d) _ d.type).ok hrun
    refine e.typedefs d.name _ ?_
    rw [typedefs_withTypedef, Table.find?_insert, if_pos rfl]

theorem typedef_listed (d : TypedefDecl) : Ensures t (item (.typedef d)) fun _ t' =>
    ∃ h ∈ t'.graph.module.items, t'.typedefs.find? d.name = some h := by
  unfold item
  refine .bind (typedef_leads s d) (typedef_found s d) ?_
  intro h t₁ _ _ _ hf _ t' hrun
  rw [place_run] at hrun
  cases hrun
  exact ⟨h, mem_placedState .., hf⟩

theorem function_listed (name : String) (sig : Signature) (location : Option Location) :
    Ensures t (item (.declaration ⟨some name, .function sig, location⟩)) fun _ t' =>
      t'.functions.contains name = true := by
  unfold item declare
  apply Ensures.get
  split
  next hc => exact .pure hc
  next =>
    have hl := function_leads s name location sig
    refine .bind hl (.of_leads hl) ?_
    intro h t₁ _ _ _ _ _ t' hrun
    cases hrun
    show ((t₁.functions.insert name h).find? name).isSome = true
    rw [Table.find?_insert, if_pos rfl]
    rfl

theorem reference_listed {i : Item} {key : Option ContainerKind × String}
    (hi : i.reference? = some key) : Ensures t (item i) fun _ t' =>
      ∃ h ∈ t'.graph.module.items, t'.lookup key = some h := by
  cases i with
  | container kind spec =>
    obtain ⟨_ | tag, _ | ms, location⟩ := spec
    · cases hi
    · cases hi
    · cases hi
      have hfound : Ensures t (container kind none ⟨some tag, none, location⟩) fun h t' =>
          (t'.containers kind).find? tag = some h := by
        unfold container
        exact openNode_found (some kind) tag location
      unfold item
      refine .bind (container_leads s ..) hfound ?_
      intro h t₁ _ _ _ hf _ t' hrun
      rw [placeTagged_run] at hrun
      cases hrun
      exact ⟨h, mem_placedState .., (lookup_placed ..).trans hf⟩
    · cases hi
  | enumeration spec =>
    obtain ⟨_ | tag, _ | es, location⟩ := spec
    · cases hi
    · cases hi
    · cases hi
      have hfound : Ensures t (enumeration ⟨some tag, none, location⟩ none) fun h t' =>
          t'.enums.find? tag = some h := by
        unfold enumeration
        refine .bind (enumNode_leads s ..) (openNode_found none tag location) ?_
        exact fun _ _ _ _ _ hf => .pure hf
      unfold item
      refine .bind (enumeration_leads s ..) hfound ?_
      intro h t₁ _ _ _ hf _ t' hrun
      rw [placeTagged_run] at hrun
      cases hrun
      exact ⟨h, mem_placedState .., (lookup_placed ..).trans hf⟩
    · cases hi
  | _ => cases hi

theorem unlisted_declares {i : Item} (hi : i.isUnlisted = true) (hb : i.bodies = [])
    (hh : t.hoisted = []) : Ensures t (item i) fun _ t' => ∃ x, t.graph.get? x = none ∧
      t'.graph.module.items = t.graph.module.items ++ [x] ∧
      DeclaresAt t'.typedefs t'.graph x i := by
  have hk : (i.bodies.filterMap Body.key?).Nodup := by
    rw [hb]
    exact .nil
  have henters : Ensures t (item i) fun _ t' => i.Enters t t' := by
    cases i with
    | container kind spec => exact container_enters s kind spec hh hk
    | enumeration spec => exact enumeration_enters s spec hh
    | declaration d =>
      obtain ⟨_ | name, type, location⟩ := d
      · cases hi
      · refine variable_enters s name location ?_ hh hk
        rintro sig rfl
        cases hi
    | _ => cases hi
  intro _ t' hrun
  obtain ⟨e, rfl, hfresh, hmade⟩ := henters _ t' hrun
  have hext := (item_leads s e.item).2.1
  rw [hrun] at hext
  have hnew := hmade.fresh hext hfresh hi
  refine ⟨e.node, hnew, ?_, hmade.declares⟩
  have hbodies : e.bodies = [] := List.map_eq_nil_iff.mp (hmade.writing.bodies.trans hb)
  have hhoisted : e.hoisted = [] := by
    apply List.eq_nil_iff_forall_not_mem.mpr
    intro h hmem
    obtain ⟨b, _, hp⟩ := hmade.nested h hmem
    rw [hbodies] at hp
    cases hp
  have hmem : e.node ∉ t.graph.module.items := by
    intro hmem
    obtain ⟨n, hn, _⟩ := s.items _ hmem
    rw [hnew] at hn
    cases hn
  rw [hmade.module, hhoisted, Item.defines_of_bodies hb]
  simp [Module.push, Module.contains, hmem]

theorem item_settles (i : Item) (hh : t.hoisted = []) :
    Ensures t (item i) fun _ t' => i.Settled t' := by
  intro _ t' hrun
  constructor
  case typedef =>
    intro name hname
    cases i with
    | typedef d =>
      cases hname
      exact typedef_listed s d _ t' hrun
    | _ => cases hname
  case function =>
    intro name hname
    cases i with
    | declaration d =>
      obtain ⟨_ | declared, type, location⟩ := d
      · cases type <;> cases hname
      · cases type with
        | function sig =>
          cases hname
          exact function_listed s name sig location _ t' hrun
        | _ => cases hname
    | _ => cases hname
  case reference => exact fun key hkey => reference_listed s hkey _ t' hrun
  case unlisted =>
    intro hi hb
    obtain ⟨x, _, hitems, hd⟩ := unlisted_declares s hi hb hh _ t' hrun
    exact ⟨x, by simp [hitems], _, hd⟩

theorem item_keeps (i : Item) (hh : t.hoisted = []) : Ensures t (item i) fun _ t' =>
    t'.hoisted = [] ∧ ∀ k ∈ t.graph.module.items, k ∈ t'.graph.module.items := by
  refine (item_places s i).weaken ?_
  rintro _ t' (rfl | ⟨t₁, x, _, hm, rfl⟩)
  · exact ⟨hh, fun _ => id⟩
  · refine ⟨rfl, fun k hk => Module.mem_push.mpr ?_⟩
    by_cases hkx : k = x
    · exact .inr hkx
    · refine .inl (Module.mem_pushAll.mpr (.inl ?_))
      rw [← hm] at hk
      split
      · exact Module.mem_remove_of_ne hkx hk
      · exact hk

/-- At the end of a unit, all its items are settled. -/
theorem items_settle (is : List Item) (hh : t.hoisted = []) :
    Ensures t (is.forM item) fun _ t' => t'.hoisted = [] ∧
      (∀ k ∈ t.graph.module.items, k ∈ t'.graph.module.items) ∧ ∀ i ∈ is, i.Settled t' := by
  induction is generalizing t with
  | nil => exact .pure ⟨hh, fun _ => id, fun _ hi => nomatch hi⟩
  | cons i is ih =>
    refine .bind (item_leads s i) ((item_settles s i hh).and (item_keeps s i hh)) ?_
    rintro _ t₁ s₁ _ _ ⟨hi, hh₁, hitems⟩
    refine .last (items_lead s₁ is) (ih s₁ hh₁) ?_
    rintro _ t₂ _ e _ ⟨hh₂, hitems₂, his⟩
    refine ⟨hh₂, fun k hk => hitems₂ k (hitems k hk), fun j hj => ?_⟩
    rcases List.mem_cons.mp hj with rfl | hj
    · exact hi.keep e hitems₂
    · exact his j hj

end

/-! ## The second time -/

section
variable {t : Translator} {i : Item} (hh : t.hoisted = [])
include hh

theorem reference_again {key : Option ContainerKind × String} {h : Handle}
    (hi : i.reference? = some key) (hf : t.lookup key = some h)
    (hmem : h ∈ t.graph.module.items) : (item i).run t = (.ok ⟨⟩, t) := by
  cases i with
  | container kind spec =>
    obtain ⟨_ | tag, _ | ms, location⟩ := spec
    · cases hi
    · cases hi
    · cases hi
      have hrun : (container kind none ⟨some tag, none, location⟩).run t = (.ok h, t) := by
        unfold container
        exact openNode_known (some kind) hf none location
      unfold item
      rw [run_bind, hrun]
      exact place_again hh hmem
    · cases hi
  | enumeration spec =>
    obtain ⟨_ | tag, _ | es, location⟩ := spec
    · cases hi
    · cases hi
    · cases hi
      have hrun : (enumeration ⟨some tag, none, location⟩ none).run t = (.ok h, t) := by
        unfold enumeration
        exact run_bind_of_ok (openNode_known none hf none location) _
      unfold item
      rw [run_bind, hrun]
      exact place_again hh hmem
    · cases hi
  | _ => cases hi

/-- An item that is settled and found by a name changes nothing. -/
theorem item_again (hs : i.Settled t) (hr : i.Repeatable) (hi : i.isUnlisted = false) :
    (item i).run t = (.ok ⟨⟩, t) := by
  cases i with
  | typedef d =>
    obtain ⟨h, hmem, hf⟩ := hs.typedef d.name rfl
    exact typedef_passes d hf hh hmem
  | container kind spec =>
    have hb := hr.bodies rfl rfl
    obtain ⟨_ | tag, _ | ms, location⟩ := spec
    · cases hi
    · cases hi
    · obtain ⟨h, hmem, hf⟩ := hs.reference (some kind, tag) rfl
      exact reference_again hh rfl hf hmem
    · cases Item.defines_of_bodies hb
  | enumeration spec =>
    have hb := hr.bodies rfl rfl
    obtain ⟨_ | tag, _ | es, location⟩ := spec
    · cases hi
    · cases hi
    · obtain ⟨h, hmem, hf⟩ := hs.reference (none, tag) rfl
      exact reference_again hh rfl hf hmem
    · cases Item.defines_of_bodies hb
  | declaration d =>
    obtain ⟨_ | name, type, location⟩ := d
    · rfl
    · cases type with
      | function sig =>
        unfold item declare
        rw [run_get, if_pos (hs.function name rfl)]
        rfl
      | _ => cases hi
  | ignored what => rfl

end

end Walk

namespace SourceUnit

open Translator

def snoc (u : SourceUnit) (i : Item) : SourceUnit := { u with items := u.items ++ [i] }

theorem feed_snoc {u : SourceUnit} {t t' : Translator} (h : t.feed u = (.ok ⟨⟩, t')) (i : Item) :
    t.feed (u.snoc i) = (Walk.item i).run t' := by
  have hrun : (forM u.items Walk.item : Walk PUnit).run t = (.ok ⟨⟩, t') := h
  show (forM (u.items ++ [i]) Walk.item).run t = _
  rw [List.forM_append, Walk.run_bind, hrun]
  show (Walk.item i >>= fun _ => (Pure.pure ⟨⟩ : Walk PUnit)).run t' = _
  rw [Walk.run_bind]
  cases (Walk.item i).run t' with
  | mk r t'' => cases r <;> rfl

theorem runs_again {u : SourceUnit} {t : Translator} (h : Translator.start.feed u = (.ok ⟨⟩, t))
    {i : Item} (hi : i ∈ u.items) (hl : i.isUnlisted = true) :
    ∃ t', (Walk.item i).run t = (.ok ⟨⟩, t') := by
  have hleaves := Walk.items_leave u.items .start Knows.start
  have hrun : (u.items.forM Walk.item).run .start = (.ok ⟨⟩, t) := h
  obtain ⟨hk, hout⟩ := hleaves
  rw [hrun] at hk hout
  have s := (Sound.start.feed u).1
  rw [h] at s
  have hread : (Known.none.read u.items).1 = none := by
    cases hfirst : (Known.none.read u.items).1 with
    | none => rfl
    | some o =>
      rw [hfirst] at hout
      obtain ⟨e, he, _⟩ := hout
      cases he
  -- fewer typedefs were known the first time, and they were enough
  obtain ⟨before, hbefore, hsub⟩ := Known.read_none hi hread
  have hnone := Item.obstacles_unlisted hl hsub
  rw [hbefore, List.sublist_nil] at hnone
  have hagain := (Walk.item_leaves s hk i).outcome
  rw [hnone] at hagain
  obtain ⟨_, ha⟩ := hagain
  exact ⟨_, Prod.ext ha rfl⟩

/-- An item that was read and has no body in it, or is a typedef or a function, can stand in its
unit again. Nothing changes when it is found by its name or tag; a variable is declared twice
then, and so is an aggregate without a tag. -/
theorem redeclared {u : SourceUnit} {g : Graph} (hg : u.translate = .ok g) {i : Item}
    (hi : i ∈ u.items) (hr : i.Repeatable) :
    ∃ g', (u.snoc i).translate = .ok g' ∧
      if i.isUnlisted then
        ∃ first ∈ g.module.items, ∃ again, g.get? again = none ∧
          g'.module.items = g.module.items ++ [again] ∧
          ∃ typedefs typedefs', DeclaresAt typedefs g first i ∧ DeclaresAt typedefs' g' again i
      else g' = g := by
  obtain ⟨t, ht, rfl⟩ := translate_ok hg
  have s := (Sound.start.feed u).1
  rw [ht] at s
  obtain ⟨hh, -, hall⟩ := Walk.items_settle .start u.items rfl _ t ht
  have hs := hall i hi
  have hfeed := feed_snoc ht i
  cases hl : i.isUnlisted with
  | false =>
    rw [Walk.item_again hh hs hr hl] at hfeed
    refine ⟨t.graph, ?_, by simp⟩
    unfold translate
    rw [hfeed]
  | true =>
    obtain ⟨htd, hfn⟩ := i.names_of_unlisted hl
    have hb := hr.bodies htd hfn
    obtain ⟨first, hfirst, typedefs, hd⟩ := hs.unlisted hl hb
    obtain ⟨t', hrun⟩ := runs_again ht hi hl
    obtain ⟨again, hnone, hitems, hd'⟩ := Walk.unlisted_declares s hl hb hh _ t' hrun
    rw [hrun] at hfeed
    refine ⟨t'.graph, ?_, ?_⟩
    · unfold translate
      rw [hfeed]
    · exact ⟨first, hfirst, again, hnone, hitems, _, _, hd, hd'⟩

end SourceUnit

namespace Sample

def whole : TypedefDecl := ⟨"whole", .word "int", none⟩

def single : Item := .declaration (.named "v" (.word "int"))

/-- `typedef int whole; struct S; int f(); int v;` -/
def declaring : SourceUnit := ⟨"again.h", [.typedef whole, .container .struct (.reference "S"),
  .declaration (.named "f" (.returning (.word "int") [])), single]⟩

def alone : SourceUnit := ⟨"v.h", [single]⟩

end Sample

theorem redeclared_declaring : ∃ g, Sample.declaring.translate = .ok g ∧
    ∀ i ∈ Sample.declaring.items, i.Repeatable ∧
      ∃ g', (Sample.declaring.snoc i).translate = .ok g' ∧
        if i.isUnlisted then
          ∃ first ∈ g.module.items, ∃ again, g.get? again = none ∧
            g'.module.items = g.module.items ++ [again] ∧
            ∃ typedefs typedefs', DeclaresAt typedefs g first i ∧ DeclaresAt typedefs' g' again i
        else g' = g := by
  have h : Sample.declaring.translate.toOption.isSome = true := by decide +kernel
  obtain ⟨g, hg⟩ := Option.isSome_iff_exists.mp h
  have hg := Graph.eq_ok_of_mem_toOption hg
  have hr : ∀ i ∈ Sample.declaring.items, i.Repeatable := by
    unfold Sample.declaring
    simp only [List.forall_mem_cons]
    exact ⟨.inl rfl, .inr (.inr rfl), .inr (.inl rfl), .inr (.inr rfl), nofun⟩
  exact ⟨g, hg, fun i hi => ⟨hr i hi, SourceUnit.redeclared hg hi (hr i hi)⟩⟩

/-- After `int v; int v;` the one variable is an item twice. -/
theorem single_declared_twice : Sample.single ∈ Sample.alone.items ∧ Sample.single.bodies = [] ∧
    ∃ g g' v, Sample.alone.translate = .ok g ∧
      (Sample.alone.snoc Sample.single).translate = .ok g' ∧ g.module.items = [⟨1⟩] ∧
      g'.module.items = [⟨1⟩, ⟨2⟩] ∧ v.name = "v" ∧ g'.get? ⟨1⟩ = some (.object v) ∧
      g'.get? ⟨2⟩ = some (.object v) := by
  have hg : ∃ g ∈ Sample.alone.translate.toOption, g.module.items = [⟨1⟩] := by decide +kernel
  have hg' : ∃ g' ∈ (Sample.alone.snoc Sample.single).translate.toOption,
      g'.module.items = [⟨1⟩, ⟨2⟩] ∧ g'.get? ⟨1⟩ = some (.object ⟨"v", ⟨0⟩, none⟩) ∧
        g'.get? ⟨2⟩ = some (.object ⟨"v", ⟨0⟩, none⟩) := by
    decide +kernel
  obtain ⟨g, hg, hitems⟩ := hg
  obtain ⟨g', hg', hitems', hfirst, hagain⟩ := hg'
  exact ⟨List.mem_singleton_self _, rfl, g, g', _, Graph.eq_ok_of_mem_toOption hg,
    Graph.eq_ok_of_mem_toOption hg', hitems, hitems', rfl, hfirst, hagain⟩

end CythonDecls
