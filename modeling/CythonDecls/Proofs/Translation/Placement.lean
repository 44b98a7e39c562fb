import CythonDecls.Proofs.Graph.Order
import CythonDecls.Proofs.Translation.Units

/-!
# When items are placed

A node is placed with the first entry that leaves it, behind all that was there
before. It is moved only by its own definition, to the end again. So what is no
aggregate comes ahead of all that is placed after it, and of all that moves.
-/

namespace CythonDecls

def typedefNames (is : List Item) : List String := is.filterMap Item.typedefName?

/-! ## One entry among many -/

/-- An entry that was left on the way from `t` to `t'`, with what was read before it
and what was read behind it. -/
structure Stage (t : Translator) (is : List Item) (t' : Translator) (es : List Entry) where
  before : List Item
  done : List Entry
  start : Translator
  entry : Entry
  stop : Translator
  behind : List Item
  left : List Entry
  items : is = before ++ entry.item :: behind
  entries : es = done ++ entry :: left
  front : Reads t before start done
  sound : stop.Sound
  extend : start.Extends stop
  made : entry.Made start stop
  back : Reads stop behind t' left

section
variable {t t₁ t' : Translator} {is : List Item} {es : List Entry} {a x : Handle}

def Stage.afterPass {i : Item} (passed : i.Passed t) (s : Stage t is t' es) :
    Stage t (i :: is) t' es :=
  { s with
    before := i :: s.before
    items := congrArg (i :: ·) s.items
    front := .pass passed s.front }

def Stage.afterEnter {e : Entry} (sound : t₁.Sound) (extend : t.Extends t₁) (made : e.Made t t₁)
    (s : Stage t₁ is t' es) : Stage t (e.item :: is) t' (e :: es) :=
  { s with
    before := e.item :: s.before
    done := e :: s.done
    items := congrArg (e.item :: ·) s.items
    entries := congrArg (e :: ·) s.entries
    front := .enter sound extend made s.front }

def Stage.first {e : Entry} (sound : t₁.Sound) (extend : t.Extends t₁) (made : e.Made t t₁)
    (back : Reads t₁ is t' es) : Stage t (e.item :: is) t' (e :: es) where
  before := []
  done := []
  start := t
  entry := e
  stop := t₁
  behind := is
  left := es
  items := rfl
  entries := rfl
  front := .nil t
  sound := sound
  extend := extend
  made := made
  back := back

namespace Reads

theorem stage (h : Reads t is t' es) : ∀ e ∈ es, ∃ s : Stage t is t' es, s.entry = e := by
  induction h with
  | nil t => exact fun _ he => nomatch he
  | pass passed _ ih =>
    intro e he
    obtain ⟨s, hs⟩ := ih e he
    exact ⟨s.afterPass passed, hs⟩
  | enter sound extend made rest ih =>
    intro e he
    rcases List.mem_cons.mp he with rfl | he
    · exact ⟨.first sound extend made rest, rfl⟩
    · obtain ⟨s, hs⟩ := ih e he
      exact ⟨s.afterEnter sound extend made, hs⟩

theorem placed (h : Reads t is t' es) (hx : x ∈ t'.graph.module.items)
    (hnot : x ∉ t.graph.module.items) : ∃ s : Stage t is t' es,
      x ∉ s.start.graph.module.items ∧ (x = s.entry.node ∨ x ∈ s.entry.hoisted) := by
  induction h with
  | nil t => exact absurd hx hnot
  | pass passed _ ih =>
    obtain ⟨s, hs⟩ := ih hx hnot
    exact ⟨s.afterPass passed, hs⟩
  | @enter t t₁ t' e is es sound extend made rest ih =>
    by_cases hmem : x ∈ t₁.graph.module.items
    · have hnew := (made.mem_items.mp hmem).resolve_left hnot
      exact ⟨.first sound extend made rest, hnot, hnew⟩
    · obtain ⟨s, hs⟩ := ih hx hmem
      exact ⟨s.afterEnter sound extend made, hs⟩

/-! ## Names -/

theorem declared (h : Reads t is t' es) {name : String} (hx : t'.typedefs.find? name = some x) :
    t.typedefs.find? name = some x ∨ name ∈ typedefNames is := by
  have hcons {i : Item} {is : List Item} (hname : name ∈ typedefNames is) :
      name ∈ typedefNames (i :: is) :=
    ((List.sublist_cons_self i is).filterMap _).subset hname
  induction h with
  | nil t => exact .inl hx
  | pass _ _ ih => exact (ih hx).imp_right hcons
  | @enter t t₁ t' e is es _ _ made _ ih =>
    rcases ih hx with hx | hname
    · rw [made.typedefs] at hx
      cases hdecl : e.item.typedefName? with
      | none =>
        rw [hdecl] at hx
        exact .inl hx
      | some declared =>
        rw [hdecl, Option.elim_some, Table.find?_insert] at hx
        split at hx
        · rename_i he
          exact .inr (List.mem_filterMap.mpr ⟨e.item, List.mem_cons_self, he ▸ hdecl⟩)
        · exact .inl hx
    · exact .inr (hcons hname)

theorem known (h : Reads t is t' es) {name : String} (hname : name ∈ typedefNames is) :
    ∃ x, t'.typedefs.find? name = some x := by
  induction h with
  | nil t => exact nomatch hname
  | @pass t t' i is es passed rest ih =>
    obtain ⟨j, hj, hdecl⟩ := List.mem_filterMap.mp hname
    rcases List.mem_cons.mp hj with rfl | hj
    · cases j with
      | typedef d =>
        cases hdecl
        obtain ⟨x, hx⟩ := Option.isSome_iff_exists.mp passed
        exact ⟨x, rest.extension.typedefs _ _ hx⟩
      | _ => cases hdecl
    · exact ih (List.mem_filterMap.mpr ⟨j, hj, hdecl⟩)
  | @enter t t₁ t' e is es _ _ made rest ih =>
    obtain ⟨j, hj, hdecl⟩ := List.mem_filterMap.mp hname
    rcases List.mem_cons.mp hj with rfl | hj
    · refine ⟨e.node, rest.extension.typedefs _ _ ?_⟩
      rw [made.typedefs, hdecl, Option.elim_some, Table.find?_insert, if_pos rfl]
    · exact ih (List.mem_filterMap.mpr ⟨j, hj, hdecl⟩)

theorem typedefs_mem (h : Reads t is t' es)
    (hitems : ∀ name k, t.typedefs.find? name = some k → k ∈ t.graph.module.items) :
    ∀ name k, t'.typedefs.find? name = some k → k ∈ t'.graph.module.items := by
  induction h with
  | nil t => exact hitems
  | pass _ _ ih => exact ih hitems
  | enter _ _ made _ ih => exact ih (made.typedefs_mem hitems)

end Reads

/-! ## What stays ahead -/

theorem Entry.Made.ne_of_settled {e : Entry} (h : e.Made t t') (hdefines : e.item.defines = true)
    {n : Node} (hn : t'.graph.get? a = some n) (ha : n.isAggregate = false) : a ≠ e.node := by
  rintro rfl
  have hsorts := h.declares.sorts hn
  cases he : e.item with
  | container kind spec => cases n <;> simp_all [Item.sorts, Node.isAggregate]
  | enumeration spec => cases n <;> simp_all [Item.sorts, Node.isAggregate]
  | _ =>
    rw [he] at hdefines
    cases hdefines

theorem Entry.Made.defines_of_body {e : Entry} (h : e.Made t t') {b : Body}
    (hb : (b, e.node) ∈ e.bodies) : e.item.defines = true := by
  obtain ⟨n, hn, ha⟩ := h.writing.aggregate hb
  have hmem : b ∈ e.item.bodies := h.writing.bodies ▸ List.mem_map_of_mem hb
  rcases Item.aggregate_of_sorts (h.declares.sorts hn) ha with ⟨kind, spec, he⟩ | ⟨spec, he⟩
  · obtain ⟨tag, _ | ms, location⟩ := spec
    · rw [he] at hmem
      exact nomatch hmem
    · rw [he]
      rfl
  · obtain ⟨tag, _ | es, location⟩ := spec
    · rw [he] at hmem
      exact nomatch hmem
    · rw [he]
      rfl

/-- What does not move stays ahead of what comes later or moves. -/
theorem Entry.Made.precedes {e : Entry} {b : Handle} (h : e.Made t t')
    (hn : t.graph.module.items.Nodup) (ha : a ∈ t.graph.module.items)
    (hstays : e.item.defines = true → a ≠ e.node) (hb : b ∈ t'.graph.module.items)
    (hold : b ∈ t.graph.module.items → (e.item.defines = true → b ≠ e.node) →
      t.graph.module.Precedes a b) : t'.graph.module.Precedes a b := by
  have hmodule : t'.graph.module = (e.hoisted.filter (· ≠ e.node) ++ [e.node]).foldl Module.push
      (if e.item.defines then t.graph.module.remove e.node else t.graph.module) := by
    rw [h.module, List.foldl_append]
    rfl
  rw [hmodule] at hb ⊢
  by_cases hd : e.item.defines = true
  · rw [if_pos hd] at hb ⊢
    -- the node is taken out first
    refine Module.precedes_of_pushAll (Module.mem_remove_of_ne (hstays hd) ha) hb fun hb => ?_
    obtain ⟨hne, hb⟩ := hn.mem_erase_iff.mp hb
    exact (hold hb fun _ => hne).remove (hstays hd) hne
  · rw [if_neg hd] at hb ⊢
    exact Module.precedes_of_pushAll ha hb fun hb => hold hb fun he => absurd he hd

theorem Reads.precedes (h : Reads t is t' es) (hn : t.graph.module.items.Nodup)
    (ha : a ∈ t.graph.module.items) (hstays : ∀ e ∈ es, e.item.defines = true → a ≠ e.node)
    (hx : x ∈ t'.graph.module.items)
    (hold : x ∈ t.graph.module.items → t.graph.module.Precedes a x) :
    t'.graph.module.Precedes a x := by
  induction h with
  | nil t => exact hold hx
  | pass _ _ ih => exact ih hn ha hstays hx hold
  | @enter t t₁ t' e is es _ _ made _ ih =>
    refine ih (made.nodup hn) (made.mem_items.mpr (.inl ha))
      (fun e' he' => hstays e' (List.mem_cons_of_mem _ he')) hx fun hx₁ => ?_
    exact made.precedes hn ha (hstays e List.mem_cons_self) hx₁ fun hxt _ => hold hxt

def Graph.Settled (g : Graph) (h : Handle) : Prop :=
  ∃ n, g.get? h = some n ∧ n.isAggregate = false

theorem Graph.Settled.grow {g g' : Graph} {h : Handle} (hs : g.Settled h) (hg : g.Grows g') :
    g'.Settled h := by
  obtain ⟨n, hn, ha⟩ := hs
  obtain ⟨n', hn', hb⟩ := hg h n hn
  exact ⟨n', hn', hb.isAggregate.trans ha⟩

theorem Reads.ne_of_settled (h : Reads t is t' es) (hs : t.graph.Settled a) :
    ∀ e ∈ es, e.item.defines = true → a ≠ e.node := by
  intro e he hdefines
  obtain ⟨s, rfl⟩ := h.stage e he
  obtain ⟨n, hn, ha⟩ := hs.grow (s.front.extension.graph.trans s.extend.graph)
  exact s.made.ne_of_settled hdefines hn ha

end

namespace Stage

/-! ## From the start -/

variable {t' : Translator} {is : List Item} {es : List Entry} {a x c k : Handle}
  (s : Stage .start is t' es)

theorem item_mem : s.entry.item ∈ is := by
  have hmem : s.entry.item ∈ s.before ++ s.entry.item :: s.behind :=
    List.mem_append_right _ List.mem_cons_self
  rwa [← s.items] at hmem

theorem entry_mem : s.entry ∈ es := by
  have hmem : s.entry ∈ s.done ++ s.entry :: s.left := List.mem_append_right _ List.mem_cons_self
  rwa [← s.entries] at hmem

theorem start_nodup : s.start.graph.module.items.Nodup := s.front.nodup .nil

theorem start_sound : s.start.Sound := s.front.sound .start

theorem extension : s.stop.Extends t' := s.back.extension

theorem find_of_name {name : String} (hname : name ∈ typedefNames s.before)
    (ha : t'.typedefs.find? name = some a) : s.start.typedefs.find? name = some a := by
  obtain ⟨y, hy⟩ := s.front.known hname
  have hay := s.extension.typedefs _ _ (s.extend.typedefs _ _ hy)
  rw [ha] at hay
  cases hay
  exact hy

theorem settled_of_find {name : String} (ha : s.start.typedefs.find? name = some a) :
    a ∈ s.start.graph.module.items ∧ s.start.graph.Settled a := by
  obtain ⟨d, hd, _⟩ := s.start_sound.typedefs _ _ ha
  exact ⟨s.front.typedefs_mem (fun _ _ h => nomatch h) _ _ ha, _, hd, rfl⟩

theorem precedes_moved (ha : a ∈ s.start.graph.module.items) (hs : s.start.graph.Settled a)
    (hdefines : s.entry.item.defines = true) (hx : s.entry.node ∈ t'.graph.module.items) :
    t'.graph.module.Precedes a s.entry.node := by
  obtain ⟨n, hn, hno⟩ := hs.grow s.extend.graph
  refine s.back.precedes (s.made.nodup s.start_nodup) (s.made.mem_items.mpr (.inl ha))
    (s.back.ne_of_settled ⟨n, hn, hno⟩) hx fun hx₁ => ?_
  exact s.made.precedes s.start_nodup ha (fun _ => s.made.ne_of_settled hdefines hn hno) hx₁
    fun _ hne => absurd rfl (hne hdefines)

theorem precedes (ha : a ∈ s.start.graph.module.items) (hs : s.start.graph.Settled a)
    (hx : x ∈ t'.graph.module.items)
    (hold : x ∈ s.start.graph.module.items → s.start.graph.module.Precedes a x) :
    t'.graph.module.Precedes a x := by
  have hread := Reads.enter s.sound s.extend s.made s.back
  exact hread.precedes s.start_nodup ha (hread.ne_of_settled hs) hx hold

/-! ## The bodies of an entry -/

theorem mem_bodies {b : Body} (hb : (b, c) ∈ s.entry.bodies) : b ∈ s.entry.item.bodies :=
  s.made.writing.bodies ▸ List.mem_map_of_mem hb

theorem node_mem : s.entry.node ∈ t'.graph.module.items :=
  s.back.mem_items_of_mem s.made.filed.node

theorem eq_node {b : Body} (hb : (b, c) ∈ s.entry.bodies) (hplace : b.place = .item) :
    c = s.entry.node := by
  have hat := s.made.placed _ hb
  unfold PlacedAt at hat
  rwa [hplace] at hat

theorem mem_items_of_nested {b : Body} (hb : (b, c) ∈ s.entry.bodies) (hplace : b.place = .nested) :
    c ∈ t'.graph.module.items := by
  have hat := s.made.placed _ hb
  unfold PlacedAt at hat
  rw [hplace] at hat
  exact s.back.mem_items_of_mem (s.made.filed.hoisted c hat.1)

section
variable (hk : ((es.flatMap (·.item.bodies)).filterMap Body.key?).Nodup)
include hk

theorem keys : ((s.done.flatMap (·.item.bodies) ++ (s.entry.item.bodies ++
    s.left.flatMap (·.item.bodies))).filterMap Body.key?).Nodup := by
  have he := congrArg (List.flatMap (·.item.bodies)) s.entries
  rw [List.flatMap_append, List.flatMap_cons] at he
  rwa [he] at hk

theorem front_writing : Writing .start s.start (s.done.flatMap (·.item.bodies))
    (s.done.flatMap (·.bodies)) :=
  s.front.writing ((s.keys hk).sublist ((List.sublist_append_left _ _).filterMap _))

theorem back_writing : Writing s.stop t' (s.left.flatMap (·.item.bodies))
    (s.left.flatMap (·.bodies)) := by
  refine s.back.writing ((s.keys hk).sublist (List.Sublist.filterMap _ ?_))
  exact (List.sublist_append_right ..).trans (List.sublist_append_right ..)

theorem kept : ∀ p ∈ s.entry.bodies, t'.graph.get? p.2 = s.stop.graph.get? p.2 :=
  s.made.writing.kept s.sound (s.back_writing hk)
    ((s.keys hk).sublist ((List.sublist_append_right _ _).filterMap Body.key?))

theorem not_written_before {p q : Body × Handle} (hp : p ∈ s.done.flatMap (·.bodies))
    (hq : q ∈ s.entry.bodies) : p.2 ≠ q.2 := by
  refine (s.front_writing hk).disjoint s.start_sound s.made.writing ?_ p hp q hq
  refine (s.keys hk).sublist (List.Sublist.filterMap _ ?_)
  exact (List.Sublist.refl _).append (List.sublist_append_left ..)

theorem bodyAt {p : Body × Handle} (hp : p ∈ s.entry.bodies) :
    ∃ typedefs : Table String Handle,
      (∀ name h, typedefs.find? name = some h → s.stop.typedefs.find? name = some h) ∧
        BodyAt typedefs t'.graph p.2 p.1 := by
  obtain ⟨typedefs, _, ht, hb⟩ := s.made.writing.nodes p hp
  exact ⟨typedefs, ht, hb.grow s.extension.graph fun n hn => (s.kept hk p hp).trans hn⟩

theorem inside_of_holds {q : Body × Handle} (hq : q ∈ s.entry.bodies)
    (hh : t'.graph.Holds q.2 k) : ∃ b, (b, k) ∈ s.entry.bodies ∧ b ∈ q.1.inside ∧
      ∀ b' ∈ b.inside, b' ∈ q.1.inside := by
  obtain ⟨kind, c, hc, f, hf, hi, rfl⟩ := hh.1
  obtain ⟨typedefs, _, hbody⟩ := s.bodyAt hk hq
  have hhosts := (s.made.writing.hosts q hq).mono (s.kept hk q hq) fun _ => id
  obtain ⟨⟨place, kind', tag, ms⟩ | ⟨place, tag, es⟩, h⟩ := q
  · obtain ⟨c', hc', _, hfields⟩ := hbody
    obtain ⟨_, c'', hc'', hhosted⟩ := hhosts
    rw [hc] at hc' hc''
    cases hc'
    cases hc''
    obtain ⟨w, hw, b, hb, hmem⟩ := exists_of_hosted hfields hhosted hf hi
    exact ⟨b, hmem, inPlace_of_field hw hb⟩
  · obtain ⟨e, he, _⟩ := hbody
    rw [hc] at he
    cases he

theorem inside_of_trans (hh : Relation.TransGen t'.graph.Holds c k) :
    ∀ q ∈ s.entry.bodies, q.2 = c → ∃ b, (b, k) ∈ s.entry.bodies ∧ b ∈ q.1.inside := by
  induction hh using Relation.TransGen.head_induction_on with
  | single hh =>
    rintro q hq rfl
    obtain ⟨b, hb, hin, _⟩ := s.inside_of_holds hk hq hh
    exact ⟨b, hb, hin⟩
  | head hh _ ih =>
    rintro q hq rfl
    obtain ⟨b, hb, _, hall⟩ := s.inside_of_holds hk hq hh
    obtain ⟨b', hb', hin⟩ := ih _ hb rfl
    exact ⟨b', hb', hall b' hin⟩

end

end Stage

section
variable {t' : Translator} {is : List Item} {es : List Entry} {x c : Handle}
  (h : Reads .start is t' es)
include h

theorem Reads.declares_of_item (hx : x ∈ t'.graph.module.items) {n : Node}
    (hn : t'.graph.get? x = some n) (ha : n.isAggregate = false) :
    ∃ s : Stage .start is t' es, x ∉ s.start.graph.module.items ∧
      DeclaresAt s.stop.typedefs t'.graph x s.entry.item := by
  obtain ⟨s, hnew, hplaced⟩ := h.placed hx List.not_mem_nil
  have hnode : x = s.entry.node := by
    refine hplaced.resolve_right fun hh => ?_
    obtain ⟨b, _, hb⟩ := s.made.nested x hh
    obtain ⟨m, hm, hagg⟩ := s.made.writing.aggregate hb
    obtain ⟨n', hn', hbecomes⟩ := s.extension.graph x m hm
    rw [hn] at hn'
    cases hn'
    rw [hbecomes.isAggregate, hagg] at ha
    cases ha
  exact ⟨s, hnew, hnode ▸ s.made.declares.grow s.extension.graph⟩

theorem Reads.typedef_of_item (hx : x ∈ t'.graph.module.items) {d : Typedef}
    (hn : t'.graph.get? x = some (.typedef d)) :
    d.target.isSome = true ∧ d.name ∈ typedefNames is := by
  obtain ⟨s, _, hd⟩ := h.declares_of_item hx hn rfl
  have hsorts := hd.sorts hn
  have hmem := s.item_mem
  cases hi : s.entry.item with
  | typedef decl =>
    rw [hi] at hd hmem
    obtain ⟨n, c, hn', hname, ht, _⟩ := hd
    rw [hn] at hn'
    cases hn'
    exact ⟨Option.isSome_of_eq_some ht, List.mem_filterMap.mpr ⟨_, hmem, congrArg some hname.symm⟩⟩
  | _ =>
    rw [hi] at hsorts
    cases hsorts

theorem Reads.stage_of_hasBody
    (hk : ((es.flatMap (·.item.bodies)).filterMap Body.key?).Nodup) (hb : t'.graph.HasBody c) :
    ∃ s : Stage .start is t' es, ∃ b, (b, c) ∈ s.entry.bodies := by
  obtain ⟨n, hn, hbody⟩ := hb
  have hmem : c ∈ (es.flatMap (·.bodies)).map Prod.snd := by
    by_contra hnot
    exact nomatch (h.writing hk).step.bodies c n hn hbody hnot
  obtain ⟨⟨b, _⟩, hp, rfl⟩ := List.mem_map.mp hmem
  obtain ⟨e, he, hp⟩ := List.mem_flatMap.mp hp
  obtain ⟨s, rfl⟩ := h.stage e he
  exact ⟨s, b, hp⟩

end

end CythonDecls
