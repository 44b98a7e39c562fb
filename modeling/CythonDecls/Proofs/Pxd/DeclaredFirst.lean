import CythonDecls.Proofs.Pxd.DeclaratorText
import CythonDecls.Proofs.Pxd.Definitions
import CythonDecls.Proofs.Pxd.Pages
import CythonDecls.Proofs.Pxd.TypedefOrder
import CythonDecls.Proofs.Translation.TypedefsFirst
import CythonDecls.Proofs.Unnest.Names

/-!
# From typedefs declared first to typedefs introduced first

A unit that declares its typedefs before their uses leads to blocks that introduce
them before their uses. What this needs is that no body is printed too early, with an
item that only mentioned its tag: a definition inside of another declaration leaves
such an item where it was.
-/

namespace CythonDecls

open Pxd

/-- Every tag is defined once, and typedefs are declared before their uses, also before
those in bodies that are printed early. -/
structure SourceUnit.DeclaresFirst (u : SourceUnit) : Prop where
  tags : (u.bodies.filterMap Body.key?).Nodup
  names : ∀ name ∈ typedefNames u.items, Identifier name
  uses : UsesFollow u.items
  early : EarlyUsesFollow u.items

/-! ## Plain typedefs -/

theorem Node.not_identifier_anonymousName (n : Node) : ¬Identifier n.anonymousName := by
  intro h
  have hmem : ' ' ∈ n.anonymousName.toList := by
    show ' ' ∈ ("<anonymous " ++ n.kindName ++ ">").toList
    simp
  exact absurd (h.2 _ hmem).1 (by decide)

theorem Unnesting.mangle_ne_anonymousName (outer inner : String) (n : Node) :
    mangle outer inner ++ "_t" ≠ n.anonymousName := by
  intro he
  have hhead : (mangle outer inner ++ "_t").toList.head? = n.anonymousName.toList.head? :=
    congrArg (·.toList.head?) he
  have hmangle : (mangle outer inner ++ "_t").toList.head? = some '_' := by
    show ("__" ++ outer ++ "_" ++ inner ++ "_t").toList.head? = _
    simp
  have hanonymous : n.anonymousName.toList.head? = some '<' := by
    show ("<anonymous " ++ n.kindName ++ ">").toList.head? = _
    simp
  rw [hmangle, hanonymous] at hhead
  exact absurd hhead (by decide)

theorem SourceUnit.Unnested.plainTypedefs {g g' : Graph} {ex : List Handle} (h : Unnested g g' ex)
    (hp : PlainTypedefs g) : PlainTypedefs g' := by
  intro x hx d hd
  by_cases hlt : x.index < g.size
  · refine hp x (((h.items x).mp hx).resolve_right fun hex => ?_) d (h.unnests.old_typedef hlt hd)
    exact absurd hlt (Nat.not_lt.mpr (Unnesting.new_of_extracted h.extracted hex hd))
  · have hle := Nat.not_lt.mp hlt
    obtain ⟨_, _, target, he, htarget, _⟩ := h.unnests.fresh x _ hd hle
    cases he
    obtain ⟨outer, inner, hname⟩ := h.unnests.names x d hd hle
    rw [hname]
    exact ⟨Option.isSome_of_eq_some htarget, Unnesting.mangle_ne_anonymousName outer inner⟩

/-! ## From the unit to its blocks -/

/-- What a unit leaves behind that declares first. -/
structure Graph.DeclaresFirst (g : Graph) : Prop where
  closed : g.Closed
  inRange : ∀ h ∈ g.module.items, h.index < g.size
  items : g.module.items.Nodup
  first : g.TypedefsFirst
  plain : PlainTypedefs g
  runs : ∃ m, g.unnest = .ok (m.graph, m.stats) ∧
    Unnesting.Run ⟨g, [], ⟨0, 0⟩⟩ g.module.items m

theorem SourceUnit.DeclaresFirst.translates {u : SourceUnit} (hu : u.DeclaresFirst) {g : Graph}
    (hg : u.translate = .ok g) : g.DeclaresFirst := by
  obtain ⟨t, es, rfl, hreads, _⟩ := u.reads hg hu.tags
  have hk : ((es.flatMap (·.item.bodies)).filterMap Body.key?).Nodup := by
    have hsub := (hreads.sublist.flatMap Item.bodies).filterMap Body.key?
    rw [List.flatMap_map] at hsub
    exact hu.tags.sublist hsub
  have s := hreads.sound .start
  have hi : ∀ h ∈ t.graph.module.items, h.index < t.graph.size := by
    intro h hh
    obtain ⟨n, hn, _⟩ := s.items h hh
    exact Graph.lt_of_get? hn
  constructor
  case closed => exact s.closed
  case inRange => exact hi
  case items => exact hreads.nodup .nil
  case first => exact hreads.typedefsFirst hk hu.uses hu.early
  case plain =>
    intro x hx d hd
    obtain ⟨htarget, hname⟩ := hreads.typedef_of_item hx hd
    exact ⟨htarget, fun n he => n.not_identifier_anonymousName (he ▸ hu.names _ hname)⟩
  case runs =>
    have hw := hreads.writing hk
    refine hw.nested.unnest_runs (fun h ⟨n, hn, hb⟩ => ?_) hw.once (fun h hh => ?_)
      s.closed.inRange hi
    · by_contra hnot
      exact nomatch hw.step.bodies h n hn hb hnot
    · obtain ⟨p, hp, rfl⟩ := List.mem_map.mp hh
      exact hw.lt hp

/-- Where a unit declares its typedefs before their uses, and before those in bodies that
are printed early, the blocks of its page introduce every typedef that they print before
they do. -/
theorem SourceUnit.typedefs_introduced {u : SourceUnit} (hu : u.DeclaresFirst) {g : Graph}
    (hg : u.translate = .ok g) (header : String) (externBlock : Bool) :
    ∃ o g' ps, generate u header ⟨externBlock, ⟨none⟩⟩ = .ok o ∧
      o.Shows header ⟨externBlock, ⟨none⟩⟩ g g' ps ∧
      ∀ before p behind, ps = before ++ p :: behind → p.2.TypedefsBacked ⟨g', p.1⟩ before := by
  have hfirst := hu.translates hg
  obtain ⟨m, hm, hrun⟩ := hfirst.runs
  have hunnested := hrun.unnested hfirst.inRange hfirst.items
  have hclosed := hunnested.unnests.closed hfirst.closed
  have hinRange := hunnested.inRange hfirst.inRange
  obtain ⟨ps, hps, hbacked⟩ := typedefs_backed hclosed hinRange hunnested.once
    (hrun.typedefsFirst hfirst.closed hfirst.items hfirst.first)
      (hunnested.plainTypedefs hfirst.plain)
  obtain ⟨o, ho, hshows⟩ :=
    generate_runs hg hm hclosed hinRange header ⟨externBlock, ⟨none⟩⟩ hps
  exact ⟨o, m.graph, ps, ho, hshows, hbacked⟩

namespace Sample

def countName : TypedefDecl := ⟨"count_t", .word "int", none⟩

def listName : TypedefDecl := ⟨"list_t", .container .struct (.reference "list"), none⟩

/-- Defines `struct list { struct { count_t used; } in; list_t *next; }` after
`typedef int count_t` and `typedef struct list list_t`, and declares
`list_t *find(count_t n)`. -/
def linked : SourceUnit := ⟨"list.h", [.typedef countName, .typedef listName,
  .container .struct (.body (some "list") [
    .named "in" (.container .struct (.body none [.named "used" (.word "count_t")])),
    .named "next" (.pointer (.word "list_t"))]),
  .declaration (.named "find"
    (.returning (.pointer (.word "list_t")) [.named "n" (.word "count_t")]))]⟩

theorem linked_declaresFirst : linked.DeclaresFirst where
  tags := by decide
  names := by decide
  uses := by decide
  early := by decide

theorem linked_accepted : ∃ g, linked.translate = .ok g := by
  have h : linked.translate.toOption.isSome = true := by decide +kernel
  obtain ⟨g, hg⟩ := Option.isSome_iff_exists.mp h
  exact ⟨g, Graph.eq_ok_of_mem_toOption hg⟩

end Sample

theorem typedefs_introduced_linked : Sample.linked.DeclaresFirst ∧
    ∃ g, Sample.linked.translate = .ok g ∧
      ∃ o g' ps, generate Sample.linked "list.h" .default = .ok o ∧
        o.Shows "list.h" .default g g' ps ∧ ∀ before p behind, ps = before ++ p :: behind →
          p.2.TypedefsBacked ⟨g', p.1⟩ before :=
  have ⟨g, hg⟩ := Sample.linked_accepted
  ⟨Sample.linked_declaresFirst, g, hg,
    SourceUnit.typedefs_introduced Sample.linked_declaresFirst hg "list.h" true⟩

namespace Sample

def numberName : TypedefDecl := ⟨"T", .word "int", none⟩

/-- Defines `struct S { T x; } *p` after `struct S` and `typedef int T`. -/
def early : SourceUnit := ⟨"early.h", [.container .struct (.reference "S"), .typedef numberName,
  .declaration (.named "p" (.pointer (.container .struct (.body (some "S")
    [.named "x" (.word "T")]))))]⟩

end Sample

/-- The body of `S` is printed where `S` was only mentioned, and the typedef `T` with it,
which no block before that introduces. -/
theorem early_not_introduced : (Sample.early.bodies.filterMap Body.key?).Nodup ∧
    (typedefNames Sample.early.items).Nodup ∧ UsesFollow Sample.early.items ∧
      ∃ o g g' ps, generate Sample.early "early.h" .default = .ok o ∧
        o.lines = ["cdef extern from \"early.h\":", "    cdef struct S:", "        T x", "",
          "    ctypedef int T", "", "    S *p"] ∧
        Sample.early.translate = .ok g ∧ o.Shows "early.h" .default g g' ps ∧
        ¬∀ before p behind, ps = before ++ p :: behind → p.2.TypedefsBacked ⟨g', p.1⟩ before := by
  have hrun : ∃ o ∈ (generate Sample.early "early.h" .default).toOption,
      o.lines = ["cdef extern from \"early.h\":", "    cdef struct S:", "        T x", "",
        "    ctypedef int T", "", "    S *p"] := by decide +kernel
  have hfirst : ∃ g ∈ Sample.early.translate.toOption, ∃ r ∈ g.unnest.toOption,
      ∃ ps ∈ (Rendering.named r.1 ⟨none⟩ .start r.1.module.items).toOption, ∃ p ∈ ps.head?,
        ∃ type ∈ p.2.types, ∃ n ∈ r.1.get? type, n.typedef?.isSome = true := by decide +kernel
  obtain ⟨o, ho, hlines⟩ := hrun
  have ho := Graph.eq_ok_of_mem_toOption ho
  obtain ⟨g, g', hg, _, _, ps, hshows⟩ := generate_shows ho
  refine ⟨by decide, by decide, by decide, o, g, g', ps, ho, hlines, hg, hshows, fun hall => ?_⟩
  obtain ⟨_, hg₁, r, hr, ps₁, hps₁, p, hp, type, htype, n, hn, htypedef⟩ := hfirst
  rw [hg] at hg₁
  cases hg₁
  obtain ⟨rfl, rfl⟩ := hshows.unique hr hps₁
  obtain ⟨t, ht⟩ := Option.isSome_iff_exists.mp htypedef
  have hnode : r.1.get? type = some (.typedef t) := by
    cases n with
    | typedef d =>
      cases ht
      exact hn
    | _ => cases ht
  -- it is the first block of all
  obtain ⟨_, _, hnone, _⟩ := hall [] p ps₁.tail (List.cons_head?_tail hp).symm type htype type t
    ⟨.refl, t, hnode⟩ hnode
  cases hnone

end CythonDecls
