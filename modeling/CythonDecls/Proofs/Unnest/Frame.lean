import CythonDecls.Proofs.Graph.Closed
import CythonDecls.Proofs.Graph.Inline
import CythonDecls.Unnest
import Mathlib.Data.List.Forall2

/-!
# What unnesting leaves alone

Unnesting names extracted aggregates and turns inline fields into fields of new
typedefs. All other nodes stay, bodies keep their field names and enumerators,
and no field becomes inline. `Unnests g g' ex` says so of a stretch that
extracted `ex`; stretches compose.
-/

namespace CythonDecls

theorem mem_right_of_forall₂ {α β : Type} {R : α → β → Prop} {as : List α} {bs : List β}
    (h : List.Forall₂ R as bs) : ∀ a ∈ as, ∃ b ∈ bs, R a b := by
  induction h with
  | nil => exact fun _ ha => nomatch ha
  | cons hab _ ih =>
    intro a ha
    rcases List.mem_cons.mp ha with rfl | ha
    · exact ⟨_, List.mem_cons_self, hab⟩
    · obtain ⟨b, hb, hr⟩ := ih a ha
      exact ⟨b, List.mem_cons_of_mem _ hb, hr⟩

/-- A field stays, or is one of a typedef of its type. -/
inductive Field.Unnests (g g' : Graph) (ex : List Handle) : Field → Field → Prop where
  | same (f : Field) : Unnests g g' ex f f
  | moved {f : Field} {typedef : Handle} {d : Typedef} (inline : f.inline = true)
      (new : g.size ≤ typedef.index) (node : g'.get? typedef = some (.typedef d))
      (target : d.target = some f.type) (extracted : f.type ∈ ex) (placed : typedef ∈ ex) :
      Unnests g g' ex f { f with type := typedef, inline := false }

inductive Node.Unnests (g g' : Graph) (ex : List Handle) : Node → Node → Prop where
  | same {n : Node} : Unnests g g' ex n n
  | container {kind : ContainerKind} {c c' : Container} (location : c'.location = c.location)
      (tag : c.tag.isSome → c'.tag.isSome)
      (fields : List.Forall₂ (Field.Unnests g g' ex) c.fields c'.fields) :
      Unnests g g' ex (.container kind c) (.container kind c')
  | enumeration {e e' : Enumeration} (location : e'.location = e.location)
      (tag : e.tag.isSome → e'.tag.isSome) (values : e'.values = e.values) :
      Unnests g g' ex (.enumeration e) (.enumeration e')

/-- From `g` to `g'`, the aggregates in `ex` were extracted, each with a typedef.
Only the types of inline fields get other tags, and the tags and the new typedefs
have mangled names. -/
structure Graph.Unnests (g g' : Graph) (ex : List Handle) : Prop where
  size : g.size ≤ g'.size
  nodes : ∀ h n, g.get? h = some n → ∃ n', g'.get? h = some n' ∧ n.Unnests g g' ex n'
  fresh : ∀ h n, g'.get? h = some n → g.size ≤ h.index → h ∈ ex ∧
    ∃ d target, n = .typedef d ∧ d.target = some target ∧ target ∈ ex ∧ g'.HasBody target
  names : ∀ h d, g'.get? h = some (.typedef d) → g.size ≤ h.index →
    ∃ outer inner, d.name = Unnesting.mangle outer inner ++ "_t"
  tags : ∀ h n n', g.get? h = some n → g'.get? h = some n' →
    n'.tag? = n.tag? ∨
      (∃ c, g.Inline c h) ∧ ∃ outer inner, n'.tag? = some (Unnesting.mangle outer inner)

section
variable {g g' g'' : Graph} {ex ex' : List Handle}

theorem Field.Unnests.name {f f' : Field} (h : f.Unnests g g' ex f') : f'.name = f.name := by
  cases h <;> rfl

theorem Field.Unnests.trans {f f' f'' : Field} (h : f.Unnests g g' ex f')
    (h' : f'.Unnests g' g'' ex' f'') (hs : g.size ≤ g'.size)
    (htypedef : ∀ k d, g'.get? k = some (.typedef d) → g''.get? k = some (.typedef d))
    (hex : ∀ k ∈ ex, k ∈ ex') : f.Unnests g g'' ex' f'' := by
  cases h with
  | same =>
    cases h' with
    | same => exact .same f
    | moved inline new node target extracted placed =>
      exact .moved inline (Nat.le_trans hs new) node target extracted placed
  | moved inline new node target extracted placed =>
    cases h' with
    | same => exact .moved inline new (htypedef _ _ node) target (hex _ extracted) (hex _ placed)
    | moved inline' => cases inline'

theorem Node.Unnests.typedef {d : Typedef} {n : Node} (h : Node.Unnests g g' ex (.typedef d) n) :
    n = .typedef d := by
  cases h
  rfl

theorem Node.Unnests.hasBody {n n' : Node} (h : n.Unnests g g' ex n') : n'.hasBody = n.hasBody := by
  cases h with
  | same => rfl
  | @container kind c c' _ _ fields =>
    have hl : c'.fields.isEmpty = c.fields.isEmpty := by
      generalize c.fields = fs at fields
      generalize c'.fields = fs' at fields
      cases fields <;> rfl
    simp only [Node.hasBody, Node.isAggregate, Node.isOpaque, hl]
  | enumeration _ _ values => simp only [Node.hasBody, Node.isAggregate, Node.isOpaque, values]

theorem Node.Unnests.tagged {n n' : Node} (h : n.Unnests g g' ex n') (ht : n.tag?.isSome = true) :
    n'.tag?.isSome = true := by
  cases h with
  | same => exact ht
  | container _ tag _ => exact tag ht
  | enumeration _ tag _ => exact tag ht

theorem Node.Unnests.trans {n n' n'' : Node} (h : n.Unnests g g' ex n')
    (h' : n'.Unnests g' g'' ex' n'') (hs : g.size ≤ g'.size)
    (htypedef : ∀ k d, g'.get? k = some (.typedef d) → g''.get? k = some (.typedef d))
    (hex : ∀ k ∈ ex, k ∈ ex') : n.Unnests g g'' ex' n'' := by
  have hsame (fs : List Field) : List.Forall₂ (Field.Unnests g g' ex) fs fs :=
    List.forall₂_same.mpr fun f _ => .same f
  have hsame' (fs : List Field) : List.Forall₂ (Field.Unnests g' g'' ex') fs fs :=
    List.forall₂_same.mpr fun f _ => .same f
  have htrans {fs fs' fs'' : List Field} (hf : List.Forall₂ (Field.Unnests g g' ex) fs fs')
      (hf' : List.Forall₂ (Field.Unnests g' g'' ex') fs' fs'') :
      List.Forall₂ (Field.Unnests g g'' ex') fs fs'' := by
    induction hf generalizing fs'' with
    | nil =>
      cases hf'
      exact .nil
    | cons hd _ ih =>
      cases hf' with
      | cons hd' hf' => exact .cons (hd.trans hd' hs htypedef hex) (ih hf')
  cases h with
  | same =>
    cases h' with
    | same => exact .same
    | container location tag fields => exact .container location tag (htrans (hsame _) fields)
    | enumeration location tag values => exact .enumeration location tag values
  | container location tag fields =>
    cases h' with
    | same => exact .container location tag (htrans fields (hsame' _))
    | container location' tag' fields' =>
      exact .container (location'.trans location) (fun ht => tag' (tag ht)) (htrans fields fields')
  | enumeration location tag values =>
    cases h' with
    | same => exact .enumeration location tag values
    | enumeration location' tag' values' =>
      exact .enumeration (location'.trans location) (fun ht => tag' (tag ht)) (values'.trans values)

end

namespace Graph

theorem Unnests.refl (g : Graph) (ex : List Handle) : g.Unnests g ex where
  size := Nat.le_refl _
  nodes _ n hn := ⟨n, hn, .same⟩
  fresh _ _ hn hh := absurd (lt_of_get? hn) (Nat.not_lt.mpr hh)
  names _ _ hd hh := absurd (lt_of_get? hd) (Nat.not_lt.mpr hh)
  tags _ _ _ hn hn' := .inl (by rw [Option.some.inj (hn.symm.trans hn')])

theorem Unnests.mapModule (g : Graph) (f : Module → Module) (ex : List Handle) :
    g.Unnests (g.mapModule f) ex where
  size := Nat.le_refl _
  nodes _ n hn := ⟨n, hn, .same⟩
  fresh _ _ hn hh := absurd (lt_of_get? hn) (Nat.not_lt.mpr hh)
  names _ _ hd hh := absurd (lt_of_get? hd) (Nat.not_lt.mpr hh)
  tags _ _ _ hn hn' := .inl (by rw [Option.some.inj (hn.symm.trans hn')])

section
variable {g g' : Graph} {ex : List Handle} (hu : g.Unnests g' ex)
include hu

theorem Unnests.typedef {h : Handle} {d : Typedef} (hd : g.get? h = some (.typedef d)) :
    g'.get? h = some (.typedef d) := by
  obtain ⟨n, hn, hn'⟩ := hu.nodes h _ hd
  rw [hn, hn'.typedef]

theorem Unnests.old_typedef {h : Handle} {d : Typedef} (hlt : h.index < g.size)
    (hd : g'.get? h = some (.typedef d)) : g.get? h = some (.typedef d) := by
  obtain ⟨n, hn⟩ := get?_of_lt hlt
  obtain ⟨n', hn', hnn⟩ := hu.nodes h n hn
  rw [hd] at hn'
  cases hn'
  cases hnn
  exact hn

theorem Unnests.inline {h k : Handle} (hi : g'.Inline h k) : g.Inline h k := by
  obtain ⟨kind, c', hc', f', hf', hinline, rfl⟩ := hi
  by_cases hlt : h.index < g.size
  · obtain ⟨m, hm⟩ := get?_of_lt hlt
    obtain ⟨n', hn', hb⟩ := hu.nodes h m hm
    rw [hc'] at hn'
    cases hn'
    cases hb with
    | same => exact ⟨kind, c', hm, f', hf', hinline, rfl⟩
    | container _ _ fields =>
      obtain ⟨f, hf, hff⟩ := mem_right_of_forall₂ fields.flip f' hf'
      cases hff with
      | same => exact ⟨kind, _, hm, f', hf, hinline, rfl⟩
      | moved => cases hinline
  · obtain ⟨_, _, _, he, _⟩ := hu.fresh h _ hc' (Nat.not_lt.mp hlt)
    cases he

theorem Unnests.hasBody {h : Handle} : g'.HasBody h ↔ g.HasBody h := by
  constructor
  · rintro ⟨n, hn, hb⟩
    by_cases hlt : h.index < g.size
    · obtain ⟨m, hm⟩ := get?_of_lt hlt
      obtain ⟨n', hn', hb'⟩ := hu.nodes h m hm
      rw [hn] at hn'
      cases hn'
      exact ⟨m, hm, hb'.hasBody ▸ hb⟩
    · obtain ⟨_, _, _, rfl, _⟩ := hu.fresh h n hn (Nat.not_lt.mp hlt)
      cases hb
  · rintro ⟨n, hn, hb⟩
    obtain ⟨n', hn', hb'⟩ := hu.nodes h n hn
    exact ⟨n', hn', hb'.hasBody.trans hb⟩

theorem Unnests.trans {g'' : Graph} {ex' : List Handle} (hu' : g'.Unnests g'' ex')
    (hex : ∀ k ∈ ex, k ∈ ex') : g.Unnests g'' ex' where
  size := Nat.le_trans hu.size hu'.size
  nodes h n hn := by
    obtain ⟨n', hn', hb⟩ := hu.nodes h n hn
    obtain ⟨n'', hn'', hb'⟩ := hu'.nodes h n' hn'
    exact ⟨n'', hn'', hb.trans hb' hu.size (fun _ _ => hu'.typedef) hex⟩
  fresh h n hn hh := by
    by_cases hlt : h.index < g'.size
    · obtain ⟨n', hn'⟩ := get?_of_lt hlt
      obtain ⟨hex', d, target, rfl, ht, htex, hb⟩ := hu.fresh h n' hn' hh
      rw [hu'.typedef hn'] at hn
      cases hn
      exact ⟨hex h hex', d, target, rfl, ht, hex _ htex, hu'.hasBody.mpr hb⟩
    · exact hu'.fresh h n hn (Nat.not_lt.mp hlt)
  names h d hd hh := by
    by_cases hlt : h.index < g'.size
    · obtain ⟨n', hn'⟩ := get?_of_lt hlt
      obtain ⟨_, d', _, rfl, _⟩ := hu.fresh h n' hn' hh
      rw [hu'.typedef hn'] at hd
      cases hd
      exact hu.names h d hn' hh
    · exact hu'.names h d hd (Nat.not_lt.mp hlt)
  tags h n n'' hn hn'' := by
    obtain ⟨n', hn', _⟩ := hu.nodes h n hn
    rcases hu'.tags h n' n'' hn' hn'' with he | ⟨⟨c, hc⟩, hname⟩
    · exact (hu.tags h n n' hn hn').imp he.trans (.imp_right (he ▸ ·))
    · exact .inr ⟨⟨c, hu.inline hc⟩, hname⟩

theorem Unnests.holds {h k : Handle} (hk : g'.Holds h k) : g.Holds h k :=
  ⟨hu.inline hk.1, hu.hasBody.mp hk.2⟩

theorem Unnests.holds_trans {h k : Handle} (hk : Relation.TransGen g'.Holds h k) :
    Relation.TransGen g.Holds h k := hk.lift id fun _ _ => hu.holds

theorem Unnests.flat {h : Handle} (hf : g.Flat h) : g'.Flat h :=
  fun k hi hb => hf k (hu.inline hi) (hu.hasBody.mp hb)

theorem Unnests.rankedBelow {rank : Handle → Nat} {c : Handle} (hr : g.RankedBelow rank c) :
    g'.RankedBelow rank c :=
  fun h k hch hk => hr h k (hch.lift id fun _ _ => hu.holds) (hu.holds hk)

theorem Unnests.ranked {rank : Handle → Nat} (hr : g.Ranked rank) : g'.Ranked rank :=
  fun h k hi hb => hr h k (hu.inline hi) (hu.hasBody.mp hb)

theorem Unnests.extracted {h k : Handle} (hi : g.Inline h k) (hb : g.HasBody k) (hf : g'.Flat h) :
    k ∈ ex := by
  obtain ⟨kind, c, hc, f, hfield, hinline, rfl⟩ := hi
  have hb' : g'.HasBody f.type := hu.hasBody.mpr hb
  obtain ⟨n', hn', hn⟩ := hu.nodes h _ hc
  cases hn with
  | same => exact absurd hb' (hf _ ⟨kind, c, hn', f, hfield, hinline, rfl⟩)
  | container _ _ fields =>
    obtain ⟨f', hfield', hff⟩ := mem_right_of_forall₂ fields f hfield
    cases hff with
    | same => exact absurd hb' (hf _ ⟨kind, _, hn', f, hfield', hinline, rfl⟩)
    | moved _ _ _ _ extracted => exact extracted

theorem Unnests.inRange (hg : g.InRange) : g'.InRange := by
  intro h n' hn' k hk
  by_cases hlt : h.index < g.size
  · obtain ⟨n, hn⟩ := get?_of_lt hlt
    obtain ⟨m, hm, hb⟩ := hu.nodes h n hn
    rw [hn'] at hm
    cases hm
    have hold (l : Handle) (hl : l ∈ n.children) : l.index < g'.size :=
      Nat.lt_of_lt_of_le (hg h n hn l hl) hu.size
    cases hb with
    | same => exact hold k hk
    | container _ _ fields =>
      obtain ⟨f', hf', rfl⟩ := List.mem_map.mp hk
      obtain ⟨f, hf, hff⟩ := mem_right_of_forall₂ fields.flip f' hf'
      cases hff with
      | same => exact hold _ (List.mem_map_of_mem hf)
      | moved _ _ node => exact lt_of_get? node
    | enumeration => cases hk
  · obtain ⟨_, d, target, rfl, ht, _, m, hm, _⟩ := hu.fresh h n' hn' (Nat.not_lt.mp hlt)
    rw [Node.children, ht] at hk
    rw [List.mem_singleton.mp hk]
    exact lt_of_get? hm

theorem Unnests.closed (hg : g.Closed) : g'.Closed where
  inRange := hu.inRange hg.inRange
  descending h n' hn' k hk := by
    by_cases hlt : h.index < g.size
    · obtain ⟨n, hn⟩ := get?_of_lt hlt
      obtain ⟨m, hm, hb⟩ := hu.nodes h n hn
      rw [hn'] at hm
      cases hm
      cases hb with
      | same => exact hg.descending h n' hn k hk
      | container => cases hk
      | enumeration => cases hk
    · obtain ⟨_, d, _, rfl, _⟩ := hu.fresh h n' hn' (Nat.not_lt.mp hlt)
      cases hk

end

end Graph

end CythonDecls
