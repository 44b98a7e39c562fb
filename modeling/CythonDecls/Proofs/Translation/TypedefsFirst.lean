import CythonDecls.Proofs.Translation.Placement
import CythonDecls.Proofs.Unnest.Order

/-!
# A translation puts typedefs first

What an item is printed with was written in one entry. If the item was placed with
that entry or later, it is behind the typedefs that the entry uses. It was placed
before only if an earlier item mentions the tag of a body of the entry. Then either
the item moves, or what is printed early has to use earlier typedefs.
-/

namespace CythonDecls

/-- What an item uses is declared by the items before it, if it is declared at all. -/
def UsesFollow (is : List Item) : Prop :=
  ∀ i : Fin is.length, ∀ name ∈ is[i].uses, name ∈ typedefNames is → name ∈ typedefNames (is.take i)

/-- What is printed early uses typedefs that are declared earlier still. -/
def EarlyUsesFollow (is : List Item) : Prop :=
  ∀ i j : Fin is.length, i < j → ∀ name ∈ is[j].earlyUses is[i], name ∈ typedefNames is →
    name ∈ typedefNames (is.take i)

instance (is : List Item) : Decidable (UsesFollow is) :=
  inferInstanceAs (Decidable (∀ i : Fin is.length, ∀ name ∈ is[i].uses, name ∈ typedefNames is →
    name ∈ typedefNames (is.take i)))

instance (is : List Item) : Decidable (EarlyUsesFollow is) :=
  inferInstanceAs (Decidable (∀ i j : Fin is.length, i < j → ∀ name ∈ is[j].earlyUses is[i],
    name ∈ typedefNames is → name ∈ typedefNames (is.take i)))

theorem UsesFollow.of_split {before behind : List Item} {i : Item}
    (h : UsesFollow (before ++ i :: behind)) {name : String} (hname : name ∈ i.uses)
    (hdecl : name ∈ typedefNames (before ++ i :: behind)) : name ∈ typedefNames before := by
  simpa using h ⟨before.length, by simp⟩ name (by simpa using hname) hdecl

theorem EarlyUsesFollow.of_split {before middle behind : List Item} {first i : Item}
    (h : EarlyUsesFollow (before ++ first :: (middle ++ i :: behind))) {name : String}
    (hname : name ∈ i.earlyUses first)
    (hdecl : name ∈ typedefNames (before ++ first :: (middle ++ i :: behind))) :
    name ∈ typedefNames before := by
  let is := before ++ first :: (middle ++ i :: behind)
  let m : Fin is.length := ⟨before.length, by simp [is]⟩
  let n : Fin is.length := ⟨before.length + (middle.length + 1), by simp [is]⟩
  have hfirst : is[m] = first := by simp [is, m]
  have hi : is[n] = i := by simp [is, n, List.getElem_append_right]
  have hmn : m < n := Fin.mk_lt_mk.mpr (by omega)
  have hmem := h m n hmn name (hi.symm ▸ hfirst.symm ▸ hname) hdecl
  simpa [is, m] using hmem

/-! ## Types and the typedefs that they use -/

section
variable {typedefs : Table String Handle} {g g' : Graph} {h j x c : Handle} {i : Item}

theorem Graph.Spells.exists_part (hs : g.Spells h j) {n : Node} (hn : g.get? h = some n)
    (ht : n.typedef? = none) : ∃ k ∈ n.parts, g.Spells k j := by
  obtain ⟨hpath, d, hd⟩ := hs
  rcases Relation.ReflTransGen.cases_head hpath with rfl | ⟨k, ⟨m, hm, hk⟩, hrest⟩
  · rw [hn] at hd
    cases hd
    cases ht
  · rw [hn] at hm
    cases hm
    exact ⟨k, hk, hrest, d, hd⟩

mutual
theorem Denotes.uses_of_spells : ∀ {type : TypeExpr} {h : Handle}, Denotes typedefs g type h →
    g.Spells h j → ∃ name ∈ type.uses, typedefs.find? name = some j
  | .pointer target, h, hd, hs => by
    unfold Denotes at hd
    obtain ⟨k, hn, hk⟩ := hd
    obtain ⟨l, hl, hs⟩ := hs.exists_part hn rfl
    cases List.mem_singleton.mp hl
    exact hk.uses_of_spells hs
  | .array target dim, h, hd, hs => by
    unfold Denotes at hd
    obtain ⟨k, hn, hk⟩ := hd
    obtain ⟨l, hl, hs⟩ := hs.exists_part hn rfl
    cases List.mem_singleton.mp hl
    exact hk.uses_of_spells hs
  | .identifier words, h, hd, hs => by
    unfold Denotes DenotesWords at hd
    split at hd
    · rename_i k hk
      obtain ⟨rfl, d, hn, hwords⟩ := hd
      cases hs.eq_of_no_parts hn rfl
      subst hwords
      exact ⟨d.name, List.mem_singleton_self _, hk⟩
    · obtain ⟨l, hl, _⟩ := hs.exists_part hd rfl
      exact nomatch hl
  | .container kind ⟨tag, ms, location⟩, h, hd, hs => by
    unfold Denotes at hd
    obtain ⟨c, hn, _⟩ := hd
    exact absurd hs (Graph.not_spells_of_aggregate hn rfl)
  | .enumeration ⟨tag, es, location⟩, h, hd, hs => by
    unfold Denotes at hd
    obtain ⟨e, hn, _⟩ := hd
    exact absurd hs (Graph.not_spells_of_aggregate hn rfl)
  | .function ⟨returns, params, variadic⟩, h, hd, hs => by
    unfold Denotes at hd
    obtain ⟨f, hn, _, hreturns, hparams⟩ := hd
    obtain ⟨l, hl, hs⟩ := hs.exists_part hn rfl
    rw [TypeExpr.uses, Signature.uses]
    rcases List.mem_cons.mp hl with rfl | hl
    · obtain ⟨name, hname, ht⟩ := hreturns.uses_of_spells hs
      exact ⟨name, List.mem_append_left _ hname, ht⟩
    · obtain ⟨a, ha, rfl⟩ := List.mem_map.mp hl
      obtain ⟨name, hname, ht⟩ := hparams.uses_of_spells a ha hs
      exact ⟨name, List.mem_append_right _ hname, ht⟩

theorem DenotesParams.uses_of_spells : ∀ {ds : List Declaration} {args : List Argument},
    DenotesParams typedefs g ds args → ∀ a ∈ args, g.Spells a.type j →
      ∃ name ∈ usesOfParams ds, typedefs.find? name = some j
  | [], args, hd, a, ha, hs => by
    unfold DenotesParams at hd
    subst hd
    exact nomatch ha
  | ⟨name, type, location⟩ :: ds, args, hd, a, ha, hs => by
    unfold DenotesParams at hd
    obtain ⟨b, rest, rfl, _, ht, hrest⟩ := hd
    rw [usesOfParams]
    rcases List.mem_cons.mp ha with rfl | ha
    · obtain ⟨name, hname, hfind⟩ := ht.uses_of_spells hs
      exact ⟨name, List.mem_append_left _ hname, hfind⟩
    · obtain ⟨name, hname, hfind⟩ := hrest.uses_of_spells a ha hs
      exact ⟨name, List.mem_append_right _ hname, hfind⟩
end

theorem BodyAt.uses_of_spells {b : Body} (hb : BodyAt typedefs g h b) {kind : ContainerKind}
    {body : Container} (hn : g.get? h = some (.container kind body)) {f : Field}
    (hf : f ∈ body.fields) (hs : g.Spells f.type j) :
    ∃ name ∈ b.uses, typedefs.find? name = some j := by
  cases b with
  | container place kind' tag ms =>
    obtain ⟨c, hc, _, hfields⟩ := hb
    rw [hn] at hc
    cases hc
    obtain ⟨w, hw, hfield⟩ := mem_right_of_forall₂ hfields.flip f hf
    obtain ⟨name, hname, ht⟩ := hfield.type.uses_of_spells hs
    exact ⟨name, List.mem_flatMap.mpr ⟨w, hw, hname⟩, ht⟩
  | enumeration place tag es =>
    obtain ⟨e, he, _⟩ := hb
    rw [hn] at he
    cases he

/-! ## Tags -/

theorem Denotes.key? {type : TypeExpr} (hd : Denotes typedefs g type h)
    {key : Option ContainerKind × String} (hkey : type.key? = some key) :
    ∃ n, g.get? h = some n ∧ n.key? = some key := by
  cases type with
  | container kind spec =>
    obtain ⟨tag, ms, location⟩ := spec
    unfold Denotes at hd
    obtain ⟨c, hn, htag⟩ := hd
    cases tag with
    | none => cases hkey
    | some tag => exact ⟨_, hn, by simpa [Node.key?, htag rfl, TypeExpr.key?] using hkey⟩
  | enumeration spec =>
    obtain ⟨tag, es, location⟩ := spec
    unfold Denotes at hd
    obtain ⟨e, hn, htag⟩ := hd
    cases tag with
    | none => cases hkey
    | some tag => exact ⟨_, hn, by simpa [Node.key?, htag rfl, TypeExpr.key?] using hkey⟩
  | _ => cases hkey

theorem Denotes.isAggregate {type : TypeExpr} (hd : Denotes typedefs g type h) {n : Node}
    (hn : g.get? h = some n) (ha : n.isAggregate = true) : type.isAggregate = true := by
  -- all other types have nodes of other kinds
  have hother {m : Node} (hm : g.get? h = some m) (hnot : m.isAggregate = false) :
      type.isAggregate = true := by
    rw [hn] at hm
    cases hm
    rw [ha] at hnot
    cases hnot
  cases type with
  | container kind spec => rfl
  | enumeration spec => rfl
  | pointer target =>
    unfold Denotes at hd
    obtain ⟨_, hm, _⟩ := hd
    exact hother hm rfl
  | array target dim =>
    unfold Denotes at hd
    obtain ⟨_, hm, _⟩ := hd
    exact hother hm rfl
  | identifier words =>
    unfold Denotes DenotesWords at hd
    split at hd
    · obtain ⟨_, _, hm, _⟩ := hd
      exact hother hm rfl
    · exact hother hd rfl
  | function sig =>
    obtain ⟨returns, params, variadic⟩ := sig
    unfold Denotes at hd
    obtain ⟨_, hm, _⟩ := hd
    exact hother hm rfl

theorem DeclaresAt.denotes (hd : DeclaresAt typedefs g x i) (ha : i.Aggregate g x c) :
    ∃ type, Denotes typedefs g type c ∧ type.key? = i.key? := by
  cases i with
  | typedef d =>
    obtain ⟨n, k, hn, _, ht, hd⟩ := hd
    obtain ⟨_, n', hn', ht'⟩ := ha
    rw [hn] at hn'
    cases hn'
    rw [ht] at ht'
    cases ht'
    exact ⟨d.type, hd, rfl⟩
  | container kind spec =>
    obtain rfl : c = x := ha
    exact ⟨_, hd, rfl⟩
  | enumeration spec =>
    obtain rfl : c = x := ha
    exact ⟨_, hd, rfl⟩
  | _ => exact ha.elim

theorem DeclaresAt.aggregate_of_root (hd : DeclaresAt typedefs g x i) (hg : g.Grows g')
    (hr : g'.Root x c) : i.Aggregate g x c ∧ (i.isTypedef = true ↔ c ≠ x) := by
  rcases hr with ⟨rfl, kind, body, hc, _⟩ | ⟨t, kind, body, ht, htarget, hc⟩
  · have hsorts := (hd.grow hg).sorts hc
    cases i with
    | container kind spec => exact ⟨rfl, nofun, fun hne => absurd rfl hne⟩
    | _ => cases hsorts
  · have hcx : c ≠ x := by
      rintro rfl
      rw [ht] at hc
      cases hc
    have hsorts := (hd.grow hg).sorts ht
    cases i with
    | typedef d =>
      obtain ⟨n, k, hn, _, hk, hden⟩ := hd
      obtain ⟨n', hn', hb⟩ := hg x _ hn
      rw [ht] at hn'
      cases hn'
      cases hb with
      | typedef _ hnone =>
        rw [hk] at hnone
        cases hnone
      | refl =>
        rw [htarget] at hk
        cases hk
        obtain ⟨m, hm⟩ := Graph.get?_of_lt hden.lt
        obtain ⟨m', hm', hb⟩ := hg c m hm
        rw [hc] at hm'
        cases hm'
        have ha : d.type.isAggregate = true := hden.isAggregate hm hb.isAggregate.symm
        exact ⟨⟨ha, t, hn, htarget⟩, fun _ => hcx, fun _ => rfl⟩
    | _ => cases hsorts

def Node.declaredType (h : Handle) : Node → Handle
  | .typedef d => d.target.getD h
  | .object v => v.type
  | _ => h

theorem DeclaresAt.declaredType (hd : DeclaresAt typedefs g x i) {n : Node}
    (hn : g.get? x = some n) (ha : n.isAggregate = false) :
    ∃ written, Denotes typedefs g written (n.declaredType x) ∧ i.typeUses = written.uses := by
  have hsorts := hd.sorts hn
  cases i with
  | typedef d =>
    obtain ⟨t, c, hn', _, ht, hd⟩ := hd
    rw [hn] at hn'
    cases hn'
    exact ⟨d.type, by rwa [Node.declaredType, ht, Option.getD_some], rfl⟩
  | declaration d =>
    obtain ⟨name, type, location⟩ := d
    obtain ⟨_, rfl, ⟨f, hn', _, hd⟩ | ⟨v, hn', _, hd⟩⟩ := hd
    · rw [hn] at hn'
      cases hn'
      exact ⟨type, hd, rfl⟩
    · rw [hn] at hn'
      cases hn'
      exact ⟨type, hd, rfl⟩
  | container kind spec =>
    cases n with
    | container kind c => cases ha
    | _ => cases hsorts
  | enumeration spec =>
    cases n with
    | enumeration e => cases ha
    | _ => cases hsorts
  | ignored what => exact hd.elim

end

/-! ## Items that mention a body before it is written -/

section
variable {t' : Translator} {is : List Item} {es : List Entry} {a x c k : Handle} {b : Body}

theorem Stage.eq_node_of_root (s : Stage .start is t' es) {g : Graph}
    (hg : s.stop.graph.Grows g) (hr : g.Root x c) (hnot : ∀ b, (b, c) ∉ s.entry.bodies)
    (hplaced : x = s.entry.node ∨ x ∈ s.entry.hoisted) : x = s.entry.node := by
  refine hplaced.resolve_right fun hh => ?_
  obtain ⟨b, _, hb⟩ := s.made.nested x hh
  rcases hr with ⟨rfl, _⟩ | ⟨d, _, _, hd, _⟩
  · exact hnot b hb
  · obtain ⟨n, hn, ha⟩ := s.made.writing.aggregate hb
    obtain ⟨n', hn', hbecomes⟩ := hg x n hn
    rw [hd] at hn'
    cases hn'
    rw [← hbecomes.isAggregate] at ha
    cases ha

theorem Stage.key_of_aggregate (s : Stage .start is t' es)
    (hk : ((es.flatMap (·.item.bodies)).filterMap Body.key?).Nodup) (hb : (b, c) ∈ s.entry.bodies)
    (s' : Stage .start s.before s.start s.done)
    (hagg : s'.entry.item.Aggregate s'.stop.graph s'.entry.node c) :
    b.key? ≠ none ∧ s'.entry.item.key? = b.key? := by
  obtain ⟨type, hdenotes, htype⟩ := s'.made.declares.denotes hagg
  have hfront := (s.keys hk).sublist ((List.sublist_append_left _ _).filterMap Body.key?)
  rcases s.made.writing.origin _ hb with hle | ⟨key, hkey, hlook⟩
  · exact absurd (s'.extension.graph.lt hdenotes.lt) (Nat.not_lt.mpr hle)
  · -- the tag of the body had its node already when the item was read
    have hlook : s'.stop.lookup key = some c :=
      ((s'.back_writing hfront).step.tags key c hlook).resolve_right
        (Nat.not_le.mpr hdenotes.lt)
    obtain ⟨n, hn, hnkey⟩ := s'.sound.lookup hlook
    cases hitem : s'.entry.item.key? with
    | none => exact absurd hlook ((s'.made.keyed c hagg).untagged hitem key)
    | some other =>
      obtain ⟨n', hn', hother⟩ := hdenotes.key? (htype.trans hitem)
      rw [hn] at hn'
      cases hn'
      rw [hnkey] at hother
      exact ⟨hkey ▸ nofun, hother.symm.trans hkey.symm⟩

theorem Stage.mentioned (s : Stage .start is t' es)
    (hk : ((es.flatMap (·.item.bodies)).filterMap Body.key?).Nodup) (hb : (b, c) ∈ s.entry.bodies)
    (hx : x ∈ s.start.graph.module.items) (hr : t'.graph.Root x c) :
    ∃ s' : Stage .start s.before s.start s.done, x ∉ s'.start.graph.module.items ∧
      b.key? ≠ none ∧ s'.entry.item.key? = b.key? ∧ (s'.entry.item.isTypedef = true ↔ c ≠ x) := by
  obtain ⟨s', hnew, hplaced⟩ := s.front.placed hx List.not_mem_nil
  have hgrows : s'.stop.graph.Grows t'.graph :=
    s'.extension.graph.trans (s.extend.graph.trans s.extension.graph)
  have hnode : x = s'.entry.node := by
    refine s'.eq_node_of_root hgrows hr (fun b' hb' => ?_) hplaced
    exact s.not_written_before hk (List.mem_flatMap.mpr ⟨_, s'.entry_mem, hb'⟩) hb rfl
  subst hnode
  obtain ⟨hagg, htypedef⟩ := s'.made.declares.aggregate_of_root hgrows hr
  obtain ⟨htag, hkey⟩ := s.key_of_aggregate hk hb s' hagg
  exact ⟨s', hnew, htag, hkey, htypedef⟩

/-- What an item prints that mentions the tag of a body, and stays where it is, is what the
body uses early. -/
theorem Stage.earlyUses_of_stays (s : Stage .start is t' es) (hb : (b, c) ∈ s.entry.bodies)
    {first : Item} (htypedef : first.isTypedef = true ↔ c ≠ x)
    (hstays : ¬(b.place = .item ∧ c = x)) {p : Body}
    (hp : p = b ∧ (c = x ∨ c ∉ t'.graph.module.items) ∨ p ∈ b.inside) {name : String}
    (hname : name ∈ p.uses) : name ∈ b.earlyUses first := by
  rcases hp with ⟨rfl, hfree⟩ | hin
  · refine Body.earlyUses_own (fun hplace => ?_) (fun hfirst hplace => ?_) hname
    · refine hfree.elim (fun hcx => hstays ⟨hplace, hcx⟩) fun hnot => hnot ?_
      exact s.eq_node hb hplace ▸ s.node_mem
    · exact hfree.elim (htypedef.mp hfirst) fun hnot => hnot (s.mem_items_of_nested hb hplace)
  · have hitem (hplace : b.place = .item) : first.isTypedef = true :=
      htypedef.mpr fun hcx => hstays ⟨hplace, hcx⟩
    exact Body.earlyUses_inside hitem hin hname

/-! ## Each item comes behind the typedefs that it is printed with -/

theorem Reads.stage_of_printsBody (h : Reads .start is t' es)
    (hk : ((es.flatMap (·.item.bodies)).filterMap Body.key?).Nodup)
    (hp : t'.graph.PrintsBody x k) (hbody : t'.graph.HasBody k) :
    ∃ (s : Stage .start is t' es) (c : Handle) (b p : Body), t'.graph.Root x c ∧
      (b, c) ∈ s.entry.bodies ∧ (p, k) ∈ s.entry.bodies ∧
        (p = b ∧ (c = x ∨ c ∉ t'.graph.module.items) ∨ p ∈ b.inside) := by
  obtain ⟨c, hroot, ⟨rfl, hfree⟩ | hpath⟩ := hp
  · obtain ⟨s, b, hb⟩ := h.stage_of_hasBody hk hbody
    exact ⟨s, k, b, b, hroot, hb, hb, .inl ⟨rfl, hfree⟩⟩
  · obtain ⟨l, hl, _⟩ := Relation.TransGen.head'_iff.mp hpath
    obtain ⟨s, b, hb⟩ := h.stage_of_hasBody hk hl.1.hasBody
    obtain ⟨p, hp, hin⟩ := s.inside_of_trans hk hpath _ hb rfl
    exact ⟨s, c, b, p, hroot, hb, hp, .inr hin⟩

theorem UsesFollow.stage (hf : UsesFollow is) (s : Stage .start is t' es) {name : String}
    (hname : name ∈ s.entry.item.uses) (hdecl : name ∈ typedefNames is) :
    name ∈ typedefNames s.before := by
  rw [s.items] at hf hdecl
  exact hf.of_split hname hdecl

theorem EarlyUsesFollow.stage (he : EarlyUsesFollow is) (s : Stage .start is t' es)
    (s' : Stage .start s.before s.start s.done) {name : String}
    (hname : name ∈ s.entry.item.earlyUses s'.entry.item) (hdecl : name ∈ typedefNames is) :
    name ∈ typedefNames s'.before := by
  have hitems : is = s'.before ++ s'.entry.item :: (s'.behind ++ s.entry.item :: s.behind) := by
    have h := s.items
    rw [s'.items] at h
    simpa using h
  rw [hitems] at he hdecl
  exact he.of_split hname hdecl

variable (h : Reads .start is t' es)
  (hk : ((es.flatMap (·.item.bodies)).filterMap Body.key?).Nodup) (hf : UsesFollow is)
include h hf

theorem Reads.used_before (s : Stage .start is t' es) {name : String}
    (hname : name ∈ s.entry.item.uses) (ha : t'.typedefs.find? name = some a) :
    name ∈ typedefNames is ∧ s.start.typedefs.find? name = some a := by
  have hdecl : name ∈ typedefNames is := (h.declared ha).resolve_left nofun
  exact ⟨hdecl, s.find_of_name (hf.stage s hname hdecl) ha⟩

include hk in
theorem Reads.precedes_of_printsBody (he : EarlyUsesFollow is) (hx : x ∈ t'.graph.module.items)
    (hp : t'.graph.PrintsBody x k) {kind : ContainerKind} {body : Container}
    (hn : t'.graph.get? k = some (.container kind body)) {f : Field} (hfield : f ∈ body.fields)
    (hs : t'.graph.Spells f.type a) : t'.graph.module.Precedes a x := by
  obtain ⟨s, c, b, p, hroot, hb, hp, hpb⟩ :=
    h.stage_of_printsBody hk hp (Graph.hasBody_of_field hn hfield)
  obtain ⟨typedefs, ht, hbody⟩ := s.bodyAt hk hp
  obtain ⟨name, hname, hfind⟩ := hbody.uses_of_spells hn hfield hs
  obtain ⟨hdecl, ha⟩ := h.used_before hf s (Item.uses_of_body (s.mem_bodies hp) hname)
    (s.extension.typedefs _ _ (ht _ _ hfind))
  obtain ⟨hmem, hd⟩ := s.settled_of_find ha
  by_cases hold : x ∈ s.start.graph.module.items
  case neg => exact s.precedes hmem hd hx fun hin => absurd hin hold
  by_cases hmoves : b.place = .item ∧ c = x
  · obtain ⟨hplace, rfl⟩ := hmoves
    have hnode := s.eq_node hb hplace
    subst hnode
    exact s.precedes_moved hmem hd (s.made.defines_of_body hb) hx
  · -- the item mentions the tag of `c` and stays where it is, so the name is used early
    obtain ⟨s', hnew, htag, hkey, htypedef⟩ := s.mentioned hk hb hold hroot
    have hearly := s.earlyUses_of_stays hb htypedef hmoves hpb hname
    have hbefore := he.stage s s' (Item.mem_earlyUses (s.mem_bodies hb) htag hkey hearly) hdecl
    obtain ⟨hmem', hd'⟩ := s'.settled_of_find (s'.find_of_name hbefore ha)
    exact s.precedes hmem hd hx fun _ => s'.precedes hmem' hd' hold fun hin => absurd hin hnew

theorem Reads.precedes_of_declaredType (hx : x ∈ t'.graph.module.items) {n : Node}
    (hn : t'.graph.get? x = some n) (ha : n.isAggregate = false)
    (hs : t'.graph.Spells (n.declaredType x) a) : t'.graph.module.Precedes a x := by
  obtain ⟨s, hnew, hdeclares⟩ := h.declares_of_item hx hn ha
  obtain ⟨written, hd, huses⟩ := hdeclares.declaredType hn ha
  obtain ⟨name, hname, hfind⟩ := hd.uses_of_spells hs
  obtain ⟨_, hstart⟩ := h.used_before hf s (List.mem_append_left _ (huses ▸ hname))
    (s.extension.typedefs _ _ hfind)
  obtain ⟨hmem, hd⟩ := s.settled_of_find hstart
  exact s.precedes hmem hd hx fun hin => absurd hin hnew

include hk in
/-- In a translation, each item has the typedefs in front that are printed with it. -/
theorem Reads.typedefsFirst (he : EarlyUsesFollow is) : t'.graph.TypedefsFirst := by
  intro x hx type hp a hs
  cases hp with
  | field printed node field => exact h.precedes_of_printsBody hk hf he hx printed node field hs
  | target node target =>
    refine h.precedes_of_declaredType hf hx node rfl ?_
    rwa [Node.declaredType, target, Option.getD_some]
  | function node => exact h.precedes_of_declaredType hf hx node rfl hs
  | object node => exact h.precedes_of_declaredType hf hx node rfl hs

end

end CythonDecls
