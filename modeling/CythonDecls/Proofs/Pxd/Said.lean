import CythonDecls.Proofs.Pxd.Extends
import CythonDecls.Proofs.Pxd.Lines

/-!
# What blocks say

The lines of a block say what the graph says of the node that it is about, with
types spelled by the names that are known when its item is rendered.
-/

namespace CythonDecls.Pxd

/-- `head` declares the aggregate `h`: by its tag, by the name of a typedef that declares
it, or, for an enum that is an item, by no name. -/
inductive Declarator.Heads (d : Declarator) (h : Handle) : String → Prop where
  | tagged {n : Node} {tag : String} (node : d.graph.get? h = some n) (tagged : n.tag? = some tag) :
      Heads d h s!"cdef {keyword n} {tag}"
  | titled {n : Node} {j : Handle} {t : Typedef} (node : d.graph.get? h = some n)
      (untagged : n.tag? = none) (free : h ∉ d.graph.module.items)
      (item : j ∈ d.graph.module.items) (typedef : d.graph.get? j = some (.typedef t))
      (target : t.target = some h) (known : d.names.find? h = some t.name) :
      Heads d h s!"ctypedef {keyword n} {t.name}"
  | values {e : Enumeration} (node : d.graph.get? h = some (.enumeration e))
      (untagged : e.tag = none) (item : h ∈ d.graph.module.items) : Heads d h "cdef enum"

/-- The block is about a node as it is in the graph, and it prints this. -/
inductive Block.Says (d : Declarator) : Block → Prop where
  | forward {h : Handle} {n : Node} {tag : String} (node : d.graph.get? h = some n)
      (tagged : n.tag? = some tag)
      (lines : (forward h (keyword n) tag).lines = [s!"cdef {keyword n} {tag}"]) :
      Says d (forward h (keyword n) tag)
  | container {h : Handle} {kind : ContainerKind} {c : Container} {head : String}
      {fields : List (Field × String)} (node : d.graph.get? h = some (.container kind c))
      (heads : d.Heads h head) (shows : ShowsFields d c.fields fields)
      (lines : (container h head fields).lines = headed head (fields.map (·.2))) :
      Says d (container h head fields)
  | enumeration {h : Handle} {e : Enumeration} {head : String}
      (node : d.graph.get? h = some (.enumeration e)) (heads : d.Heads h head)
      (lines : (enumeration h head e.values).lines = headed head (e.values.map (·.name))) :
      Says d (enumeration h head e.values)
  | synonym {h k : Handle} {t : Typedef} {n : Node} {tag : String}
      (node : d.graph.get? h = some (.typedef t)) (target : t.target = some k)
      (inner : d.graph.get? k = some n) (tagged : n.tag? = some tag)
      (lines : (synonym h k tag t.name).lines = [s!"ctypedef {tag} {t.name}"]) :
      Says d (synonym h k tag t.name)
  | typedef {h k : Handle} {t : Typedef} {text : String}
      (node : d.graph.get? h = some (.typedef t)) (target : t.target = some k)
      (declares : d.declare k t.name = .ok text)
      (lines : (typedef h k text).lines = ["ctypedef " ++ text]) : Says d (typedef h k text)
  | function {h : Handle} {f : Function} {text : String}
      (node : d.graph.get? h = some (.function f)) (declares : d.declare h f.name = .ok text)
      (lines : (function h text).lines = [text]) : Says d (function h text)
  | object {h : Handle} {v : Variable} {text : String} (node : d.graph.get? h = some (.object v))
      (declares : d.declare v.type v.name = .ok text)
        (lines : (object h v.type text).lines = [text]) :
      Says d (object h v.type text)

/-! ## Heads -/

section
variable {g : Graph} {r r₁ r' : Rendering} {h k : Handle}

theorem enumHead_eq (e : Enumeration) (tag : String) :
    s!"cdef enum {tag}" = s!"cdef {keyword (.enumeration e)} {tag}" := by
  have hword : ("cdef enum " : String) = "cdef " ++ "enum" ++ " " := by decide
  show "cdef enum " ++ _ = "cdef " ++ "enum" ++ " " ++ _
  rw [hword]

theorem targetHead_tagged {n : Node} {tag : String} (ht : n.tag? = some tag) (t : Typedef) :
    targetHead n t = s!"cdef {keyword n} {tag}" := by
  have hword : ("cdef " : String) = "cdef" ++ " " := by decide
  simp only [targetHead, targetWord, declaredName, ht, Option.isSome_some, if_true,
    Option.getD_some]
  show "cdef" ++ " " ++ _ ++ " " ++ _ = "cdef " ++ _ ++ " " ++ _
  rw [hword]

theorem targetHead_untagged {n : Node} (ht : n.tag? = none) (t : Typedef) :
    targetHead n t = s!"ctypedef {keyword n} {t.name}" := by
  have hword : ("ctypedef " : String) = "ctypedef" ++ " " := by decide
  simp only [targetHead, targetWord, declaredName, ht, Option.isSome_none, Bool.false_eq_true,
    if_false, Option.getD_none]
  show "ctypedef" ++ " " ++ _ ++ " " ++ _ = "ctypedef " ++ _ ++ " " ++ _
  rw [hword]

/-- A typedef that declares its target does it by the tag, or else by its own name. -/
theorem Owns.heads {t : Typedef} {n : Node} (ho : Owns g r t k n) (hh : h ∈ g.module.items)
    (node : g.get? h = some (.typedef t)) {owner : Handle} {hs : List Handle}
    (hf : Forwards g owner hs (r.define k (declaredName n t)) r₁) :
    (r₁.declarator g).Heads k (targetHead n t) := by
  cases ht : n.tag? with
  | some tag =>
    rw [targetHead_tagged ht]
    exact .tagged ho.node ht
  | none =>
    rw [targetHead_untagged ht]
    refine .titled ho.node ht ho.free hh node ho.target ?_
    have hfind := hf.names_untagged ho.node ht
    rw [Rendering.define, Table.find?_insert, if_pos rfl, declaredName, ht] at hfind
    exact hfind

theorem Owns.truthful_synonym {t : Typedef} {n : Node} (ho : Owns g r t k n)
    (node : g.get? h = some (.typedef t)) (names : Table Handle String)
    (hne : declaredName n t ≠ t.name) :
    (Block.synonym h k (declaredName n t) t.name).Says ⟨g, names⟩ := by
  cases ht : n.tag? with
  | none =>
    have hname : declaredName n t = t.name := by simp only [declaredName, ht, Option.getD_none]
    exact absurd hname hne
  | some tag =>
    have hname : declaredName n t = tag := by simp only [declaredName, ht, Option.getD_some]
    rw [hname]
    exact .synonym node ho.target ho.node ht (Block.lines_synonym ..)

/-! ## Every block says what the graph says -/

theorem Block.IsForward.truthful {b : Block} (hb : b.IsForward g) (names : Table Handle String) :
    b.Says ⟨g, names⟩ := by
  obtain ⟨h, n, tag, hn, ht, rfl⟩ := hb
  exact .forward hn ht (lines_forward ..)

theorem Renders.truthful (hr : Renders g r h r') (hh : h ∈ g.module.items) :
    Extends (fun _ b => b.Says (r'.declarator g)) r r' := by
  cases hr with
  | silent silent => exact .refl _ r
  | @container kind c tag hs r₁ lines node tagged mentions forwards shows =>
    have hheads : (r₁.declarator g).Heads h s!"cdef {keyword (.container kind c)} {tag}" :=
      .tagged node tagged
    refine ((Extends.define r h _).forwards forwards fun _ b hb => hb.truthful _).push ?_
    exact .container node hheads shows (Block.lines_container ..)
  | @enumeration e tag node tagged =>
    refine (Extends.define r h _).push (.enumeration node ?_ (Block.lines_enumeration ..))
    rw [enumHead_eq e]
    exact .tagged node tagged
  | values node untagged values =>
    exact (Extends.refl _ r).push
      (.enumeration node (.values node untagged hh) (Block.lines_enumeration ..))
  | ownContainer node owns mentions forwards shows =>
    have hheads := owns.heads hh node forwards
    rw [Rendering.declarator, Rendering.names_synonym]
    refine Extends.synonym ?_ (owns.truthful_synonym node _)
    refine ((Extends.define r _ _).forwards forwards fun _ b hb => hb.truthful _).push ?_
    exact .container owns.node hheads shows (Block.lines_container ..)
  | @ownEnumeration t k e node owns =>
    have hheads := owns.heads hh node (.refl g k _)
    rw [Rendering.declarator, Rendering.names_synonym]
    refine Extends.synonym ?_ (owns.truthful_synonym node _)
    exact (Extends.define r _ _).push
      (.enumeration owns.node hheads (Block.lines_enumeration ..))
  | named node target inner aggregate declared mentions forwards same =>
    exact (Extends.refl _ r).forwards forwards fun _ b hb => hb.truthful _
  | typedef node target inner declared mentions forwards shows =>
    refine ((Extends.refl _ r).forwards forwards fun _ b hb => hb.truthful _).push ?_
    exact .typedef node target shows (Block.lines_typedef ..)
  | function node mentions forwards shows =>
    refine ((Extends.refl _ r).forwards forwards fun _ b hb => hb.truthful _).push ?_
    exact .function node shows (Block.lines_function ..)
  | object node mentions forwards shows =>
    refine ((Extends.refl _ r).forwards forwards fun _ b hb => hb.truthful _).push ?_
    exact .object node shows (Block.lines_object ..)

end

/-! ## The whole module list -/

/-- The blocks of a graph and their lines, each block with the names that its types have. -/
structure Prints (g : Graph) (filter : Filter) (ps : List (Table Handle String × Block)) :
    Prop where
  named : Rendering.named g filter .start g.module.items = .ok ps
  blocks : blocks g filter = .ok (ps.map (·.2))
  lines : render g filter = .ok (stacked (ps.map (·.2)))
  truthful : ∀ p ∈ ps, p.2.Says ⟨g, p.1⟩

def Filter.keeps (filter : Filter) (g : Graph) (h : Handle) : Bool :=
  (g.get? h).any filter.includes

section
variable {g : Graph}

theorem items_run (hg : g.Closed) (hi : ∀ h ∈ g.module.items, h.index < g.size) (filter : Filter)
    {hs : List Handle} :
    ∀ r : Rendering, (∀ h ∈ hs, h ∈ g.module.items) →
      ∃ ps r', hs.foldlM (Rendering.filteredItem g filter) r = .ok r' ∧
        Rendering.named g filter r hs = .ok ps ∧
        RendersAll g r (hs.filter (filter.keeps g)) ps r' := by
  induction hs with
  | nil => exact fun r _ => ⟨[], r, rfl, rfl, .nil r⟩
  | cons h hs ih =>
    intro r hall
    have hitem := hall h List.mem_cons_self
    have hrest := fun k hk => hall k (List.mem_cons_of_mem _ hk)
    obtain ⟨n, hn, hget⟩ := exists_get (hi h hitem)
    have hkeeps : filter.keeps g h = filter.includes n := by rw [Filter.keeps, hn]; rfl
    have hstep : Rendering.filteredItem g filter r h =
        if filter.includes n then r.item g h else .ok r := by
      unfold Rendering.filteredItem
      rw [hget]
      rfl
    rw [List.foldlM_cons, Rendering.named, hstep, List.filter_cons, hkeeps]
    cases filter.includes n with
    | true =>
      obtain ⟨r₁, hr₁, hrenders⟩ := Rendering.item_runs hg r (hi h hitem)
      obtain ⟨ps, r', hr', hps, hall⟩ := ih r₁ hrest
      obtain ⟨bs, hbs, _⟩ := hrenders.truthful hitem
      refine ⟨bs.map (r₁.names, ·) ++ ps, r', ?_, ?_, .cons hrenders hbs hall⟩
      · rw [if_pos rfl, hr₁]
        exact hr'
      · rw [if_pos rfl, hr₁]
        show (Rendering.named g filter r₁ hs >>= _) = _
        rw [hps, hbs, List.drop_left]
        rfl
    | false =>
      obtain ⟨ps, r', hr', hps, hall⟩ := ih r hrest
      refine ⟨ps, r', hr', ?_, hall⟩
      show (Rendering.named g filter r hs >>= _) = _
      rw [hps, List.drop_length]
      rfl

theorem prints_run (hg : g.Closed) (hi : ∀ h ∈ g.module.items, h.index < g.size)
    (filter : Filter) : ∃ ps r, Prints g filter ps ∧
      RendersAll g .start (g.module.items.filter (filter.keeps g)) ps r := by
  obtain ⟨ps, r, hr, hps, hall⟩ := items_run hg hi filter .start fun h hh => hh
  have hblocks : r.blocks = ps.map (·.2) := hall.blocks
  have hrun : blocks g filter = .ok (ps.map (·.2)) := by
    unfold blocks
    rw [hr, ← hblocks]
    rfl
  refine ⟨ps, r, ⟨hps, hrun, ?_, ?_⟩, hall⟩
  · rw [render, hrun, Except.map, linesOfBlocks_eq]
  · intro p hp
    obtain ⟨before, behind, hsplit⟩ := List.append_of_mem hp
    refine hall.blocks_follow (I := fun _ _ => True) (P := fun d _ b => b.Says d) trivial ?_
      before p behind hsplit
    intro done h rest hitems r r₁ _ hrenders
    have hmem : h ∈ g.module.items.filter (filter.keeps g) := by simp [hitems]
    exact ⟨trivial, hrenders.truthful (List.mem_filter.mp hmem).1⟩

theorem prints_run_all (hg : g.Closed) (hi : ∀ h ∈ g.module.items, h.index < g.size) :
    ∃ ps r, Prints g ⟨none⟩ ps ∧ RendersAll g .start g.module.items ps r := by
  obtain ⟨ps, r, hr, hall⟩ := prints_run hg hi ⟨none⟩
  have hkeep : g.module.items.filter (Filter.keeps ⟨none⟩ g) = g.module.items := by
    refine List.filter_eq_self.mpr fun h hh => ?_
    obtain ⟨n, hn⟩ := Graph.get?_of_lt (hi h hh)
    rw [Filter.keeps, hn]
    rfl
  exact ⟨ps, r, hr, hkeep ▸ hall⟩

end

end CythonDecls.Pxd
