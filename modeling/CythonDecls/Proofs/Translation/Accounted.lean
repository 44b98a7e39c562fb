import CythonDecls.Proofs.Translation.FreeTags
import CythonDecls.Proofs.Translation.Writes

/-!
# Every name is accounted for

The name tables tell where a name leads. Here is the other direction: every
typedef of the graph is the entry of its name, and a tag that has no entry was
made up. Such a node shares its tag with no other node, except for the entry of
a tag that was only declared later. Walks that fail leave it so as well.
-/

namespace CythonDecls

section
variable {m n : Node}

theorem Node.tag?_eq (n : Node) : n.tag? = n.key?.map (·.2) := by
  cases n with
  | container kind c => cases h : c.tag <;> simp [tag?, key?, h]
  | enumeration e => cases h : e.tag <;> simp [tag?, key?, h]
  | _ => rfl

theorem Node.Becomes.key? (h : Becomes m n) : n.key? = m.key? := by
  cases h with
  | refl => rfl
  | container kind tag => simp [Node.key?, tag]
  | enumeration tag => simp [Node.key?, tag]
  | typedef => rfl

def Node.isNamed : Node → Bool
  | .typedef _ => true
  | n => n.key?.isSome

@[simp] theorem Indirection.isNamed_node (d : Indirection) (k : Handle) :
    (d.node k).isNamed = false := by
  cases d <;> rfl

theorem Node.key?_of_unnamed (h : n.isNamed = false) : n.key? = none := by
  cases n <;> simp_all [isNamed, Node.key?]

end

/-- Named nodes are no new ones. -/
def Graph.Retains (g g' : Graph) : Prop :=
  ∀ h n', g'.get? h = some n' → (∃ n, g.get? h = some n ∧ n.Becomes n') ∨ n'.isNamed = false

section
variable {g : Graph}

theorem Graph.Retains.refl (g : Graph) : g.Retains g := fun _ n hn => .inl ⟨n, hn, .refl n⟩

theorem Graph.retains_add {n : Node} (hn : n.isNamed = false) {g' : Graph}
    (hnodes : g'.nodes = (g.add n).nodes) : g.Retains g' := by
  intro h m hm
  have hget : (g.add n).get? h = some m := by simpa only [get?, hnodes] using hm
  rw [get?_add] at hget
  split at hget
  · cases hget
    exact .inr hn
  · exact .inl ⟨m, hget, .refl m⟩

theorem Graph.retains_set {h : Handle} {m n : Node} (hm : g.get? h = some m) (hb : m.Becomes n) :
    g.Retains (g.set h n) := by
  intro k l hl
  by_cases hk : k = h
  · subst hk
    rw [get?_set_self hm] at hl
    cases hl
    exact .inl ⟨m, hm, hb⟩
  · rw [get?_set_ne g hk] at hl
    exact .inl ⟨l, hl, .refl l⟩

end

namespace Translator

def Listed (t : Translator) (h : Handle) : Prop := ∃ key, t.lookup key = some h

structure Accounted (t : Translator) : Prop where
  typedefs : ∀ h d, t.graph.get? h = some (.typedef d) → t.typedefs.find? d.name = some h
  tags : ∀ h n key, t.graph.get? h = some n → n.key? = some key →
    t.lookup key = some h ∨ key.2 ∈ t.invented
  alone : ∀ h k n m tag, t.graph.get? h = some n → t.graph.get? k = some m →
    n.tag? = some tag → m.tag? = some tag → ¬t.Listed h → h = k ∨ t.Listed k ∧ h.index < k.index

theorem Accounted.start : Accounted start where
  typedefs _ _ hn := by cases hn
  tags _ _ _ hn := by cases hn
  alone _ _ _ _ _ hn := by cases hn

section
variable {t t' : Translator}

/-- The entry of a tag that a node has is no other node. -/
theorem Sound.listed (s : t.Sound) {h : Handle} {n : Node} {key : Option ContainerKind × String}
    (hn : t.graph.get? h = some n) (hk : n.key? = some key) (hl : t.Listed h) :
    t.lookup key = some h := by
  obtain ⟨key', hlook⟩ := hl
  obtain ⟨n', hn', hk'⟩ := s.lookup hlook
  rw [hn] at hn'
  cases hn'
  rw [hk] at hk'
  cases hk'
  exact hlook

theorem Accounted.unused (a : t.Accounted) {tag : String} (hfree : t.isTaken tag = false) :
    ∀ h n, t.graph.get? h = some n → n.tag? ≠ some tag := by
  intro h n hn ht
  rw [Node.tag?_eq, Option.map_eq_some_iff] at ht
  obtain ⟨⟨sort, _⟩, hk, rfl⟩ := ht
  simp only [isTaken, Bool.or_eq_false_iff, List.contains_eq_mem, decide_eq_false_iff_not,
    Table.contains, Option.isSome_eq_false_iff, Option.isNone_iff_eq_none] at hfree
  obtain ⟨⟨⟨hinvented, hstructs⟩, hunions⟩, henums⟩ := hfree
  rcases a.tags h n _ hn hk with hlook | hmem
  · rcases sort with _ | _ | _
    · exact absurd hlook (by simp [Translator.lookup, henums])
    · exact absurd hlook (by simp [Translator.lookup, containers, hstructs])
    · exact absurd hlook (by simp [Translator.lookup, containers, hunions])
  · exact hinvented hmem

/-! ## Steps -/

theorem Accounted.retain (a : t.Accounted) (hg : t.graph.Retains t'.graph)
    (ht : t'.typedefs = t.typedefs) (hl : t'.lookup = t.lookup)
    (hi : ∀ tag ∈ t.invented, tag ∈ t'.invented) : t'.Accounted where
  typedefs h d hd := by
    rw [ht]
    obtain ⟨n, hn, hb⟩ | hno := hg h _ hd
    · cases hb with
      | refl => exact a.typedefs h _ hn
      | typedef name _ => exact name ▸ a.typedefs h _ hn
    · cases hno
  tags h n' key hn' hk := by
    rw [hl]
    obtain ⟨n, hn, hb⟩ | hno := hg h _ hn'
    · exact (a.tags h n key hn (hb.key? ▸ hk)).imp_right (hi _)
    · rw [Node.key?_of_unnamed hno] at hk
      cases hk
  alone h k n' m' tag hn' hm' hnt hmt hh := by
    have hold {h : Handle} {n' : Node} (hn' : t'.graph.get? h = some n')
        (ht : n'.tag? = some tag) : ∃ n, t.graph.get? h = some n ∧ n.tag? = some tag := by
      obtain ⟨n, hn, hb⟩ | hno := hg h _ hn'
      · exact ⟨n, hn, by rw [Node.tag?_eq, ← hb.key?, ← Node.tag?_eq, ht]⟩
      · rw [Node.tag?_eq, Node.key?_of_unnamed hno] at ht
        cases ht
    obtain ⟨n, hn, hnt⟩ := hold hn' hnt
    obtain ⟨m, hm, hmt⟩ := hold hm' hmt
    simp only [Listed, hl] at hh ⊢
    exact a.alone h k n m tag hn hm hnt hmt hh

theorem Accounted.enter (a : t.Accounted) {n : Node} {key : Option ContainerKind × String}
    (hn : n.key? = some key) (hnew : t.lookup key = none)
    (hg : t'.graph.nodes = (t.graph.add n).nodes) (ht : t'.typedefs = t.typedefs)
    (hl : ∀ k, t'.lookup k = if k = key then some t.graph.next else t.lookup k)
    (hi : t'.invented = t.invented) : t'.Accounted := by
  have hget (h : Handle) :
      t'.graph.get? h = if h = t.graph.next then some n else t.graph.get? h := by
    rw [← Graph.get?_add]
    simp only [Graph.get?, hg]
  have hkeep {k : Option ContainerKind × String} {h : Handle} (hk : t.lookup k = some h) :
      t'.lookup k = some h := by
    have hne : k ≠ key := by
      rintro rfl
      rw [hnew] at hk
      cases hk
    rw [hl, if_neg hne, hk]
  have hnext : t'.Listed t.graph.next := ⟨key, by rw [hl, if_pos rfl]⟩
  constructor
  case typedefs =>
    intro h d hd
    rw [hget] at hd
    rw [ht]
    split at hd
    · cases hd
      cases hn
    · exact a.typedefs h d hd
  case tags =>
    intro h m k hm hk
    rw [hget] at hm
    rw [hi]
    split at hm
    · rename_i hh
      cases hm
      rw [hn] at hk
      cases hk
      exact .inl (by rw [hl, if_pos rfl, hh])
    · exact (a.tags h m k hm hk).imp_left hkeep
  case alone =>
    intro h k n' m tag hn' hm hnt hmt hh
    have hne : h ≠ t.graph.next := fun he => hh (he ▸ hnext)
    rw [hget, if_neg hne] at hn'
    rw [hget] at hm
    split at hm
    · rename_i hk
      rw [hk]
      exact .inr ⟨hnext, Graph.lt_of_get? hn'⟩
    · refine (a.alone h k n' m tag hn' hm hnt hmt ?_).imp_right (And.imp_left ?_)
      · rintro ⟨l, hlook⟩
        exact hh ⟨l, hkeep hlook⟩
      · rintro ⟨l, hlook⟩
        exact ⟨l, hkeep hlook⟩

/-- The tag is made up, and no node has it yet. -/
def Reserves (t : Translator) (invented : Option String) : Prop :=
  ∀ tag, invented = some tag → tag ∈ t.invented ∧
    ∀ h n, t.graph.get? h = some n → n.tag? ≠ some tag

theorem Accounted.addAnonymous (a : t.Accounted) {n : Node} (hr : t.Reserves n.tag?)
    (hn : n.isAggregate = true) : Accounted { t with graph := t.graph.add n } := by
  constructor
  case typedefs =>
    intro h d hd
    rw [Graph.get?_add] at hd
    split at hd
    · cases hd
      cases hn
    · exact a.typedefs h d hd
  case tags =>
    intro h m k hm hk
    rw [lookup_withGraph]
    rw [Graph.get?_add] at hm
    split at hm
    · cases hm
      exact .inr (hr k.2 (by rw [Node.tag?_eq, hk]; rfl)).1
    · exact a.tags h m k hm hk
  case alone =>
    intro h k n' m tag hn' hm hnt hmt hh
    simp only [Listed, lookup_withGraph] at hh ⊢
    rw [Graph.get?_add] at hn' hm
    split at hn'
    · rename_i hnext
      cases hn'
      split at hm
      · rename_i hk
        exact .inl (hnext.trans hk.symm)
      · exact absurd hmt ((hr tag hnt).2 k m hm)
    · split at hm
      · cases hm
        exact absurd hnt ((hr tag hmt).2 h n' hn')
      · exact a.alone h k n' m tag hn' hm hnt hmt hh

theorem Accounted.enterTypedef (a : t.Accounted) {d : Typedef}
    (hnew : t.typedefs.find? d.name = none) :
    Accounted { t with
      graph := t.graph.add (.typedef d), typedefs := t.typedefs.insert d.name t.graph.next } := by
  constructor
  case typedefs =>
    intro h e he
    rw [Graph.get?_add] at he
    split at he
    · rename_i hh
      cases he
      rw [Table.find?_insert, if_pos rfl, hh]
    · exact find?_insert_of_some hnew (a.typedefs h e he)
  case tags =>
    intro h m k hm hk
    rw [Graph.get?_add] at hm
    split at hm
    · cases hm
      cases hk
    · exact a.tags h m k hm hk
  case alone =>
    intro h k n m tag hn hm hnt hmt hh
    rw [Graph.get?_add] at hn hm
    split at hn
    · cases hn
      cases hnt
    · split at hm
      · cases hm
        cases hmt
      · exact a.alone h k n m tag hn hm hnt hmt hh

theorem Accounted.withTypedef (a : t.Accounted) (d : TypedefDecl)
    (hf : t.typedefs.find? d.name = none) : (t.withTypedef d).Accounted :=
  a.enterTypedef (d := ⟨d.name, none, d.location⟩) hf

end

end Translator

end CythonDecls
