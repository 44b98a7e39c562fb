import CythonDecls.Proofs.Graph.Items
import CythonDecls.Proofs.Translation.Soundness
import CythonDecls.Proofs.Unnest.Passes

/-!
# Unnesting keeps handles whole

A graph is well formed when every handle in it names a node: those in nodes,
in the table of fundamental types and in the module list. Unnesting may not
end where inline definitions go round in a circle, but whatever it does keeps
the graph well formed, and it never meets a handle without a node or a field
that is gone. No inline definitions are ruled out here.
-/

namespace CythonDecls

structure Graph.WellFormed (g : Graph) : Prop where
  closed : g.Closed
  fundamentals : ∀ key h, g.fundamentals.find? key = some h → h.index < g.size
  items : ∀ h ∈ g.module.items, ∃ n, g.get? h = some n ∧ n.isDeclaration = true

theorem Graph.WellFormed.item_lt {g : Graph} (hg : g.WellFormed) {h : Handle}
    (hh : h ∈ g.module.items) : h.index < g.size := by
  obtain ⟨n, hn, _⟩ := hg.items h hh
  exact Graph.lt_of_get? hn

/-! ## Graphs of the same shape -/

/-- A node of the same kind, with as many fields. -/
inductive Node.Alike : Node → Node → Prop where
  | refl (n : Node) : Alike n n
  | container (kind : ContainerKind) {c c' : Container}
    (fields : c'.fields.length = c.fields.length) :
    Alike (.container kind c) (.container kind c')
  | enumeration (e e' : Enumeration) : Alike (.enumeration e) (.enumeration e')

theorem Node.Alike.trans {l m n : Node} (h₁ : Alike l m) (h₂ : Alike m n) : Alike l n := by
  cases h₁ with
  | refl => exact h₂
  | container kind fields =>
    cases h₂ with
    | refl => exact .container kind fields
    | container _ fields' => exact .container kind (fields'.trans fields)
  | enumeration e e' =>
    cases h₂ with
    | refl => exact .enumeration e e'
    | enumeration _ e'' => exact .enumeration e e''

theorem Node.Alike.isDeclaration {m n : Node} (h : Alike m n) :
    n.isDeclaration = m.isDeclaration := by
  cases h <;> rfl

namespace Graph

def Alike (g g' : Graph) : Prop :=
  ∀ h n, g.get? h = some n → ∃ n', g'.get? h = some n' ∧ n.Alike n'

theorem Alike.refl (g : Graph) : g.Alike g := fun _ n hn => ⟨n, hn, .refl n⟩

theorem Alike.trans {g₁ g₂ g₃ : Graph} (h₁ : g₁.Alike g₂) (h₂ : g₂.Alike g₃) : g₁.Alike g₃ := by
  intro h n hn
  obtain ⟨n₂, hn₂, ha₁⟩ := h₁ h n hn
  obtain ⟨n₃, hn₃, ha₂⟩ := h₂ h n₂ hn₂
  exact ⟨n₃, hn₃, ha₁.trans ha₂⟩

theorem alike_add (g : Graph) (n : Node) : g.Alike (g.add n) :=
  fun _ m hm => ⟨m, get?_add_of_some hm n, .refl m⟩

theorem alike_set {g : Graph} {h : Handle} {m n : Node} (hm : g.get? h = some m) (ha : m.Alike n) :
    g.Alike (g.set h n) := by
  intro k l hl
  by_cases hk : k = h
  · subst hk
    rw [hm] at hl
    cases hl
    exact ⟨n, get?_set_self hm n, ha⟩
  · exact ⟨l, (get?_set_ne g hk n).trans hl, .refl l⟩

section
variable {g g' : Graph}

theorem Alike.lt (ha : g.Alike g') {h : Handle} (hh : h.index < g.size) : h.index < g'.size := by
  obtain ⟨n, hn⟩ := get?_of_lt hh
  obtain ⟨n', hn', _⟩ := ha h n hn
  exact lt_of_get? hn'

theorem Alike.declaration (ha : g.Alike g') {h : Handle}
    (hd : ∃ n, g.get? h = some n ∧ n.isDeclaration = true) :
    ∃ n, g'.get? h = some n ∧ n.isDeclaration = true := by
  obtain ⟨n, hn, hdecl⟩ := hd
  obtain ⟨n', hn', hnn⟩ := ha h n hn
  exact ⟨n', hn', hnn.isDeclaration.trans hdecl⟩

theorem WellFormed.alike (hg : g.WellFormed) (ha : g.Alike g') (hc : g'.Closed)
    (hf : g'.fundamentals = g.fundamentals) (hm : g'.module = g.module) : g'.WellFormed where
  closed := hc
  fundamentals key h hk := ha.lt (hg.fundamentals key h (hf ▸ hk))
  items h hh := ha.declaration (hg.items h (hm ▸ hh))

theorem alike_setTag (g : Graph) (h : Handle) (tag : String) : g.Alike (g.setTag h tag) := by
  unfold setTag
  cases hn : g.get? h with
  | none => exact .refl g
  | some n =>
    refine alike_set hn ?_
    cases n with
    | container kind c => exact .container kind rfl
    | enumeration e => exact .enumeration e _
    | _ => exact .refl _

theorem WellFormed.setTag (hg : g.WellFormed) (h : Handle) (tag : String) :
    (g.setTag h tag).WellFormed := by
  have ha := g.alike_setTag h tag
  unfold Graph.setTag at ha ⊢
  cases hn : g.get? h with
  | none => exact hg
  | some n =>
    simp only [hn] at ha
    have hparts : (n.withTag tag).parts = n.parts := by cases n <;> rfl
    have hchildren : (n.withTag tag).children = n.children := by cases n <;> rfl
    refine hg.alike ha (hg.closed.replace hn hparts ?_) rfl rfl
    rw [hchildren]
    exact hg.closed.inRange h n hn

end

end Graph

/-! ## Faults -/

/-- The result is one that satisfies `P`, or there is none because there is no end. -/
def Safely {α : Type} (x : Except Fault α) (P : α → Prop) : Prop :=
  x = .error .endless ∨ ∃ a, x = .ok a ∧ P a

namespace Safely

variable {α β : Type} {x : Except Fault α} {f : α → Except Fault β} {P : α → Prop} {Q : β → Prop}

theorem ok {a : α} (ha : P a) : Safely (.ok a) P := .inr ⟨a, rfl, ha⟩

theorem bind (hx : Safely x P) (hf : ∀ a, P a → Safely (f a) Q) : Safely (x >>= f) Q := by
  obtain rfl | ⟨a, rfl, ha⟩ := hx
  · exact .inl rfl
  · exact hf a ha

theorem foldlM {is : List β} {f : α → β → Except Fault α}
    (hf : ∀ a, P a → ∀ i ∈ is, Safely (f a i) P) : ∀ a, P a → Safely (is.foldlM f a) P := by
  induction is with
  | nil => exact fun a ha => .ok ha
  | cons i is ih =>
    intro a ha
    rw [List.foldlM_cons]
    exact (hf a ha i List.mem_cons_self).bind
      (ih fun a ha i hi => hf a ha i (List.mem_cons_of_mem _ hi))

end Safely

/-! ## Fields -/

namespace Unnesting

variable {u v : Unnesting} {c : Handle} {outer : String} {i : Nat}

theorem isSome_field? (ha : u.graph.Alike v.graph) (hf : (u.field? c i).isSome = true) :
    (v.field? c i).isSome = true := by
  obtain ⟨f, hf⟩ := Option.isSome_iff_exists.mp hf
  obtain ⟨kind, body, hbody, hi⟩ := field?_eq_some.mp hf
  obtain ⟨n, hn, hnn⟩ := ha c _ hbody
  cases hnn with
  | refl => exact Option.isSome_iff_exists.mpr ⟨f, field?_eq_some.mpr ⟨kind, body, hn, hi⟩⟩
  | @container _ _ body' fields =>
    have hlt : i < body'.fields.length := fields ▸ (List.getElem?_eq_some_iff.mp hi).1
    exact Option.isSome_iff_exists.mpr
      ⟨body'.fields[i], field?_eq_some.mpr ⟨kind, body', hn, List.getElem?_eq_getElem hlt⟩⟩

theorem alike_extract (hf : (u.field? c i).isSome = true) (inner : Handle) (name : String) :
    u.graph.Alike (u.extract c i inner name).graph := by
  obtain ⟨f, hf⟩ := Option.isSome_iff_exists.mp hf
  obtain ⟨kind, body, hbody, _⟩ := field?_eq_some.mp hf
  rw [extract_graph hbody]
  refine (u.graph.alike_add _).trans (Graph.alike_set (Graph.get?_add_of_some hbody _) ?_)
  exact .container kind (List.length_modify ..)

theorem extract_wellFormed (hu : u.graph.WellFormed) (hf : (u.field? c i).isSome = true)
    {inner : Handle} (hinner : inner.index < u.graph.size) (name : String) :
    (u.extract c i inner name).graph.WellFormed := by
  have ha := alike_extract hf inner name
  obtain ⟨f, hf⟩ := Option.isSome_iff_exists.mp hf
  obtain ⟨kind, body, hbody, _⟩ := field?_eq_some.mp hf
  rw [extract_graph hbody] at ha ⊢
  have hgrown : (u.graph.add (.typedef ⟨name ++ "_t", some inner, none⟩)).Closed := by
    refine hu.closed.add (fun k hk => ?_) fun _ hk => nomatch hk
    rw [Node.children, Option.toList_some, List.mem_singleton] at hk
    exact hk ▸ hinner
  refine hu.alike ha (hgrown.replace (Graph.get?_add_of_some hbody _) rfl fun k hk => ?_) rfl rfl
  -- a field has its old type, or the new typedef
  obtain ⟨f', hf', rfl⟩ := List.mem_map.mp hk
  rw [Graph.size_add]
  obtain ⟨j, hj⟩ := List.mem_iff_getElem?.mp hf'
  rw [List.getElem?_modify] at hj
  obtain ⟨f₀, hf₀, rfl⟩ := Option.map_eq_some_iff.mp hj
  split
  · exact Nat.lt_succ_self _
  · exact Nat.lt_succ_of_lt
      (hu.closed.inRange c _ hbody _ (List.mem_map_of_mem (List.mem_of_getElem? hf₀)))

variable {inside : Handle → String → Unnesting → Except Fault Unnesting}

/-- What unnesting a field can do: nothing, or fail at its type, or extract the type,
after what is inside of it. -/
theorem field_cases (inside : Handle → String → Unnesting → Except Fault Unnesting) (c : Handle)
    (outer : String) (u : Unnesting) (i : Nat) :
    field inside c outer u i = .ok u ∨
      (∃ f, u.field? c i = some f ∧ u.graph.get? f.type = none ∧
        field inside c outer u i = .error (.dangling f.type)) ∨
      ∃ f n name, u.field? c i = some f ∧ u.graph.get? f.type = some n ∧ n.isAggregate = true ∧
        (field inside c outer u i = .ok ((u.named f.type name).extract c i f.type name) ∨
          field inside c outer u i = inside f.type name (u.named f.type name) >>= fun w =>
            .ok (w.extract c i f.type name)) := by
  unfold field
  cases hf : u.field? c i with
  | none => exact .inl rfl
  | some f =>
    cases hi : f.inline with
    | false => exact .inl (by simp [hi])
    | true =>
      cases hn : u.graph.get? f.type with
      | none => exact .inr (.inl ⟨f, rfl, hn, by simp [hi, Graph.get, hn, bind, Except.bind]⟩)
      | some n =>
        have hget : u.graph.get f.type = .ok n := by simp only [Graph.get, hn]
        simp only [hi, Bool.not_true, Bool.false_eq_true, if_false, hget]
        cases hb : n.hasBody with
        | false => exact .inl (by simp only [bind, Except.bind, hb, Bool.not_false, if_true]; rfl)
        | true =>
          refine .inr (.inr ⟨f, n, mangle outer (n.tag?.getD f.name), rfl, hn, ?_, ?_⟩)
          · exact (Bool.and_eq_true _ _ ▸ hb : n.isAggregate = true ∧ _).1
          · simp only [bind, Except.bind, hb, Bool.not_true, Bool.false_eq_true, if_false]
            cases n with
            | container kind body => exact .inr rfl
            | _ => exact .inl rfl

/-! ## The shape of the graph -/

theorem field_alike (hin : ∀ h name w w', inside h name w = .ok w' → w.graph.Alike w'.graph)
    (hrun : field inside c outer u i = .ok v) : u.graph.Alike v.graph := by
  rcases field_ok hrun with ⟨rfl, _⟩ | ⟨f, n, name, w, hf, _, _, _, _, rfl, hw⟩
  · exact .refl _
  · have hthere : (u.field? c i).isSome = true := by rw [hf]; rfl
    have hnamed : u.graph.Alike (u.named f.type name).graph := u.graph.alike_setTag f.type name
    have hall : u.graph.Alike w.graph := by
      rcases hw with hw | ⟨rfl, _⟩
      · exact hnamed.trans (hin _ _ _ _ hw)
      · exact hnamed
    exact hall.trans (alike_extract (isSome_field? hall hthere) _ _)

theorem fields_alike (hin : ∀ h name w w', inside h name w = .ok w' → w.graph.Alike w'.graph)
    (is : List Nat) {u : Unnesting} (hrun : is.foldlM (field inside c outer) u = .ok v) :
    u.graph.Alike v.graph :=
  foldlM_keeps (P := fun w => u.graph.Alike w.graph) is
    (fun _ _ _ _ hall hw => hall.trans (field_alike hin hw)) (.refl _) hrun

theorem container_alike (n : Nat) : ∀ h name u v, container n h name u = .ok v →
    u.graph.Alike v.graph := by
  induction n with
  | zero => exact fun _ _ _ _ h => nomatch h
  | succ n ih => exact fun _ _ _ _ hrun => fields_alike ih _ hrun

theorem field_stays {n : Nat} (hrun : (List.range i).foldlM (field (container n) c outer) u = .ok v)
    (hi : i < (u.graph.container? c).elim 0 (·.fields.length)) : (v.field? c i).isSome = true := by
  refine isSome_field? (fields_alike (container_alike n) _ hrun) ?_
  unfold field?
  cases hc : u.graph.container? c with
  | none =>
    rw [hc] at hi
    exact absurd hi (Nat.not_lt_zero _)
  | some body =>
    rw [hc] at hi
    simpa using hi

/-! ## Well-formed graphs -/

/-- The graph is well formed, and what was extracted are declarations. -/
structure WellFormed (u : Unnesting) : Prop where
  graph : u.graph.WellFormed
  extracted : ∀ h ∈ u.extracted, ∃ n, u.graph.get? h = some n ∧ n.isDeclaration = true

theorem WellFormed.named (hu : u.WellFormed) (h : Handle) (name : String) :
    (u.named h name).WellFormed where
  graph := hu.graph.setTag h name
  extracted k hk := (u.graph.alike_setTag h name).declaration (hu.extracted k hk)

theorem WellFormed.extract (hu : u.WellFormed) (hf : (u.field? c i).isSome = true) {inner : Handle}
    (hinner : ∃ n, u.graph.get? inner = some n ∧ n.isDeclaration = true) (name : String) :
    (u.extract c i inner name).WellFormed := by
  have hlt : inner.index < u.graph.size := hinner.elim fun n hn => Graph.lt_of_get? hn.1
  have ha := alike_extract hf inner name
  refine ⟨extract_wellFormed hu.graph hf hlt name, fun k hk => ?_⟩
  rcases List.mem_append.mp hk with hk | hk
  · exact ha.declaration (hu.extracted k hk)
  · rcases List.mem_cons.mp hk with rfl | hk
    · exact ha.declaration hinner
    · obtain ⟨f, hf⟩ := Option.isSome_iff_exists.mp hf
      rw [List.mem_singleton.mp hk]
      exact ⟨_, extract_next hf inner name, rfl⟩

theorem field_safe
    (halike : ∀ h name w w', inside h name w = .ok w' → w.graph.Alike w'.graph)
    (hsafe : ∀ h name w, w.WellFormed → Safely (inside h name w) WellFormed) (c : Handle)
    (outer : String) (i : Nat) (hu : u.WellFormed) :
    Safely (field inside c outer u i) WellFormed := by
  rcases field_cases inside c outer u i with h | ⟨f, hf, hn, _⟩ | ⟨f, n, name, hf, hn, ha, h⟩
  · exact h ▸ .ok hu
  · -- the type of a field is a node
    obtain ⟨kind, body, hbody, hi⟩ := field?_eq_some.mp hf
    have hlt := hu.graph.closed.inRange c _ hbody f.type
      (List.mem_map_of_mem (List.mem_of_getElem? hi))
    obtain ⟨n, hn'⟩ := Graph.get?_of_lt hlt
    rw [hn] at hn'
    cases hn'
  · have hthere : (u.field? c i).isSome = true := by rw [hf]; rfl
    have hdecl : ∃ n, u.graph.get? f.type = some n ∧ n.isDeclaration = true :=
      ⟨n, hn, by cases n <;> first | rfl | cases ha⟩
    have hnamed : u.graph.Alike (u.named f.type name).graph := u.graph.alike_setTag f.type name
    have hafter {w : Unnesting} (hw : w.WellFormed) (hall : u.graph.Alike w.graph) :
        (w.extract c i f.type name).WellFormed :=
      hw.extract (isSome_field? hall hthere) (hall.declaration hdecl) name
    rcases h with h | h
    · exact h ▸ .ok (hafter (hu.named f.type name) hnamed)
    · rw [h]
      rcases hsafe f.type name _ (hu.named f.type name) with he | ⟨w, hw, hwf⟩
      · exact .inl (by rw [he]; rfl)
      · rw [hw]
        exact .ok (hafter hwf (hnamed.trans (halike _ _ _ _ hw)))

theorem container_safe (n : Nat) : ∀ c outer u, u.WellFormed →
    Safely (container n c outer u) WellFormed := by
  induction n with
  | zero => exact fun _ _ _ _ => .inl rfl
  | succ n ih =>
    intro c outer u hu
    exact .foldlM (fun _ hw i _ => field_safe (container_alike n) ih c outer i hw) u hu

end Unnesting

/-! ## Items -/

theorem Module.mem_of_mem_putBefore {m : Module} {anchor h k : Handle}
    (hk : k ∈ (m.putBefore anchor h).items) : k ∈ m.items ∨ k = h := by
  unfold putBefore at hk
  split at hk
  · simp only [insert] at hk
    rcases List.mem_append.mp hk with hk | hk
    · exact .inl (List.mem_of_mem_erase (List.mem_of_mem_take hk))
    · rcases List.mem_cons.mp hk with hk | hk
      · exact .inr hk
      · exact .inl (List.mem_of_mem_erase (List.mem_of_mem_drop hk))
  · exact mem_push.mp hk

theorem Module.mem_of_mem_spliceBefore {anchor k : Handle} {hs : List Handle} :
    ∀ {m : Module}, k ∈ (m.spliceBefore anchor hs).items → k ∈ m.items ∨ k ∈ hs := by
  unfold spliceBefore
  induction hs with
  | nil => exact fun hk => .inl hk
  | cons h hs ih =>
    intro m hk
    rw [List.mem_cons]
    rcases ih hk with hk | hk
    · exact (mem_of_mem_putBefore hk).imp_right .inl
    · exact .inr (.inr hk)

namespace Graph

variable {g : Graph}

theorem unnestItem_safe (hg : g.WellFormed) {item : Handle} (hitem : item.index < g.size)
    (stats : UnnestStats) :
    Safely (g.unnestItem stats item) fun u => u.graph.WellFormed ∧ g.Alike u.graph := by
  obtain ⟨n, hn⟩ := get?_of_lt hitem
  unfold unnestItem
  rcases root?_eq hn with ⟨hroot, _⟩ | ⟨c, outer, hroot, _⟩
  · rw [hroot]
    exact .ok ⟨hg, .refl g⟩
  · rw [hroot]
    have hstart : Unnesting.WellFormed ⟨g, [], stats⟩ := ⟨hg, fun _ hh => nomatch hh⟩
    show Safely (Unnesting.container (g.size + 1) c outer ⟨g, [], stats⟩ >>= fun u =>
      .ok { u with graph := u.graph.mapModule (·.spliceBefore item u.extracted) }) _
    rcases Unnesting.container_safe (g.size + 1) c outer _ hstart with he | ⟨u, hu, hwf⟩
    · exact .inl (by rw [he]; rfl)
    · rw [hu]
      have hclosed := hwf.graph.closed.mapModule (·.spliceBefore item u.extracted)
      refine .ok ⟨⟨hclosed, hwf.graph.fundamentals, fun h hh => ?_⟩,
        Unnesting.container_alike _ _ _ _ _ hu⟩
      exact (Module.mem_of_mem_spliceBefore hh).elim (hwf.graph.items h) (hwf.extracted h)

theorem unnest_safe (hg : g.WellFormed) : Safely g.unnest fun r => r.1.WellFormed := by
  have hsteps : Safely (g.module.items.foldlM unnestStep ⟨g, [], ⟨0, 0⟩⟩)
      fun u => u.graph.WellFormed ∧ g.Alike u.graph := by
    refine .foldlM (fun u hu item hitem => ?_) _ ⟨hg, .refl g⟩
    unfold unnestStep
    split
    · exact .ok hu
    · obtain ⟨n, hn, _⟩ := hg.items item hitem
      refine (unnestItem_safe hu.1 (hu.2.lt (lt_of_get? hn)) u.stats).bind fun v hv => ?_
      exact .ok ⟨hv.1, hu.2.trans hv.2⟩
  exact hsteps.bind fun u hu => .ok hu.1

end Graph

end CythonDecls
