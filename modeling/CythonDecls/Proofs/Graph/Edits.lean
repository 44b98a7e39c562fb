import CythonDecls.Graph.Edit
import CythonDecls.Proofs.Specifier.Keys
import CythonDecls.Proofs.Unnest.Ends
import CythonDecls.Proofs.Unnest.Handles
import CythonDecls.Proofs.Unnest.Names

/-!
# Graphs under edits

Whatever is done to a graph, its nodes stay what they are: an edit may give an
aggregate another body or tag and a typedef its first target, and nothing else.
The table of fundamental types only gets more entries, each of a node of that
type, so a type has one node and that node tells its key.
-/

namespace CythonDecls

/-! ## What a node may turn into -/

/-- An aggregate keeps its kind, and a typedef its target once it has one. -/
inductive Node.Turns : Node → Node → Prop where
  | refl (n : Node) : Turns n n
  | container (kind : ContainerKind) (c c' : Container) :
    Turns (.container kind c) (.container kind c')
  | enumeration (e e' : Enumeration) : Turns (.enumeration e) (.enumeration e')
  | typedef {d : Typedef} (d' : Typedef) (unset : d.target = none) :
    Turns (.typedef d) (.typedef d')

theorem Node.Turns.trans {l m n : Node} (h₁ : Turns l m) (h₂ : Turns m n) : Turns l n := by
  cases h₁ with
  | refl => exact h₂
  | container kind c c' =>
    cases h₂ with
    | refl => exact .container kind c c'
    | container _ _ c'' => exact .container kind c c''
  | enumeration e e' =>
    cases h₂ with
    | refl => exact .enumeration e e'
    | enumeration _ e'' => exact .enumeration e e''
  | typedef d' unset =>
    cases h₂ with
    | refl => exact .typedef d' unset
    | typedef d'' _ => exact .typedef d'' unset

theorem Node.Turns.kindName {m n : Node} (h : Turns m n) : n.kindName = m.kindName := by
  cases h <;> rfl

theorem Node.turns_withTag (tag : String) (n : Node) : n.Turns (n.withTag tag) := by
  cases n with
  | container kind c => exact .container kind c _
  | enumeration e => exact .enumeration e _
  | _ => exact .refl _

namespace Graph

def Shared (g : Graph) : Prop :=
  ∀ key h, g.fundamentals.find? key = some h → g.get? h = some (.fundamental (.ofKey key))

/-- Every node of `g` has turned into one of `g'`, and every fundamental type
has kept its node. -/
structure Turns (g g' : Graph) : Prop where
  nodes : ∀ h n, g.get? h = some n → ∃ n', g'.get? h = some n' ∧ n.Turns n'
  known : ∀ key h, g.fundamentals.find? key = some h → g'.fundamentals.find? key = some h
  shared : g.Shared → g'.Shared

section
variable {g g' g'' : Graph} {h : Handle}

theorem Turns.refl (g : Graph) : g.Turns g := ⟨fun _ n hn => ⟨n, hn, .refl n⟩, fun _ _ => id, id⟩

theorem Turns.trans (h₁ : g.Turns g') (h₂ : g'.Turns g'') : g.Turns g'' where
  nodes k n hn := by
    obtain ⟨n', hn', ht⟩ := h₁.nodes k n hn
    obtain ⟨n'', hn'', ht'⟩ := h₂.nodes k n' hn'
    exact ⟨n'', hn'', ht.trans ht'⟩
  known key k hk := h₂.known key k (h₁.known key k hk)
  shared hs := h₂.shared (h₁.shared hs)

theorem turns_of_nodes (hf : g'.fundamentals = g.fundamentals)
    (hnodes : ∀ h n, g.get? h = some n → ∃ n', g'.get? h = some n' ∧ n.Turns n') : g.Turns g' where
  nodes := hnodes
  known key k hk := by rwa [hf]
  shared hs key k hk := by
    rw [hf] at hk
    obtain ⟨n, hn, ht⟩ := hnodes k _ (hs key k hk)
    cases ht
    exact hn

theorem turns_add (g : Graph) (n : Node) : g.Turns (g.add n) :=
  turns_of_nodes rfl fun _ m hm => ⟨m, get?_add_of_some hm n, .refl m⟩

theorem turns_set {m n : Node} (hm : g.get? h = some m) (ht : m.Turns n) : g.Turns (g.set h n) := by
  refine turns_of_nodes rfl fun k l hl => ?_
  by_cases hk : k = h
  · subst hk
    rw [hm] at hl
    cases hl
    exact ⟨n, get?_set_self hm n, ht⟩
  · exact ⟨l, (get?_set_ne g hk n).trans hl, .refl l⟩

theorem turns_mapModule (g : Graph) (f : Module → Module) : g.Turns (g.mapModule f) :=
  turns_of_nodes rfl fun _ n hn => ⟨n, hn, .refl n⟩

theorem turns_setTag (g : Graph) (h : Handle) (tag : String) : g.Turns (g.setTag h tag) := by
  unfold setTag
  cases hn : g.get? h with
  | none => exact .refl g
  | some n => exact turns_set hn (n.turns_withTag tag)

theorem turns_fundamental (g : Graph) (words : List String) :
    g.Turns (g.fundamental words).2 ∧ (g.fundamental words).2.fundamentals.find?
      (Specifier.canonicalKey words) = some (g.fundamental words).1 := by
  cases hf : g.fundamentals.find? (Specifier.canonicalKey words) with
  | some h =>
    rw [fundamental_known hf]
    exact ⟨.refl g, hf⟩
  | none =>
    rw [fundamental_new hf]
    have hadd := g.turns_add (.fundamental (.ofKey (Specifier.canonicalKey words)))
    refine ⟨⟨hadd.nodes, fun key h hk => ?_, fun hs key h hk => ?_⟩, ?_⟩
    · have hne : key ≠ Specifier.canonicalKey words := by
        intro he
        rw [he, hf] at hk
        cases hk
      simp [Table.find?_insert, hne, hk]
    · rw [Table.find?_insert] at hk
      by_cases hkey : key = Specifier.canonicalKey words
      · rw [if_pos hkey] at hk
        cases hk
        rw [hkey]
        exact get?_add_next g _
      · rw [if_neg hkey] at hk
        exact hadd.shared hs key h hk
    · simp [Table.find?_insert]

end

end Graph

/-! ## Unnesting -/

theorem foldlM_leads {ε α β : Type} {R : β → β → Prop} {f : β → α → Except ε β}
    (hrefl : ∀ b, R b b) (htrans : ∀ b c d, R b c → R c d → R b d)
    (hf : ∀ b a c, f b a = .ok c → R b c) (as : List α) (b c : β)
    (h : as.foldlM f b = .ok c) : R b c :=
  foldlM_keeps as (fun a _ d e hbd he => htrans b d e hbd (hf d a e he)) (hrefl b) h

namespace Unnesting

variable {u v : Unnesting} {c item : Handle} {outer : String} {i : Nat}

theorem extract_turns (u : Unnesting) (c : Handle) (i : Nat) (inner : Handle) (name : String) :
    u.graph.Turns (u.extract c i inner name).graph := by
  have hadd := u.graph.turns_add (.typedef ⟨name ++ "_t", some inner, none⟩)
  unfold extract
  simp only
  split
  · rename_i g hg
    obtain ⟨kind, body, hbody, rfl⟩ := Graph.modifyContainer_ok hg
    exact hadd.trans (Graph.turns_set hbody (.container kind body _))
  · exact hadd

theorem field_turns {inside : Handle → String → Unnesting → Except Fault Unnesting}
    (hinside : ∀ h name w w', inside h name w = .ok w' → w.graph.Turns w'.graph)
    (h : field inside c outer u i = .ok v) : u.graph.Turns v.graph := by
  rcases field_ok h with ⟨rfl, _⟩ | ⟨f, n, name, w, _, _, _, _, _, rfl, hw⟩
  · exact .refl _
  · have hnamed : u.graph.Turns (u.named f.type name).graph := u.graph.turns_setTag f.type name
    rcases hw with hw | ⟨rfl, _⟩
    · exact (hnamed.trans (hinside _ _ _ _ hw)).trans (extract_turns ..)
    · exact hnamed.trans (extract_turns ..)

theorem container_turns (n : Nat) : ∀ c outer u v, container n c outer u = .ok v →
    u.graph.Turns v.graph := by
  induction n with
  | zero => exact fun _ _ _ _ h => nomatch h
  | succ n ih =>
    intro c outer u v h
    exact foldlM_leads (R := fun u v => u.graph.Turns v.graph) (fun _ => .refl _)
      (fun _ _ _ => .trans) (fun _ _ _ => field_turns ih) _ u v h

theorem unnestStep_turns (h : Graph.unnestStep u item = .ok v) : u.graph.Turns v.graph := by
  rcases unnestStep_ok h with ⟨_, rfl⟩ | ⟨c, outer, w, _, _, hw, rfl⟩
  · exact .refl _
  · exact (container_turns _ _ _ _ _ hw).trans
      (w.graph.turns_mapModule (·.spliceBefore item w.extracted))

end Unnesting

theorem Graph.unnest_turns {g g' : Graph} {stats : UnnestStats} (h : g.unnest = .ok (g', stats)) :
    g.Turns g' := by
  obtain ⟨u, hu, h⟩ := exists_of_bind h
  cases h
  exact foldlM_leads (R := fun u v : Unnesting => u.graph.Turns v.graph) (fun _ => .refl _)
    (fun _ _ _ => .trans) (fun _ _ _ => Unnesting.unnestStep_turns) _ _ u hu

/-! ## Single edits -/

theorem Node.assign_turns (h target : Handle) (n : Node) : n.Turns (n.assign h target).2 := by
  cases n with
  | typedef d =>
    show (Node.typedef d).Turns (.typedef (d.assign target).2)
    unfold Typedef.assign
    by_cases hd : d.target.isSome = true
    · rw [if_pos hd]
      exact .refl _
    · rw [if_neg hd]
      exact .typedef _ (by simpa using hd)
  | _ => exact .refl _

theorem Node.append_turns (h : Handle) (field : Field) (n : Node) :
    n.Turns (n.append h field).2 := by
  cases n with
  | container kind c => exact .container kind c _
  | _ => exact .refl _

theorem Node.tagWith_turns (tag : String) (n : Node) : n.Turns (n.tagWith tag).2 := by
  cases n with
  | container kind c => exact .container kind c _
  | enumeration e => exact .enumeration e _
  | _ => exact .refl _

theorem Node.assign_fails (h target : Handle) (n : Node)
    (ha : (n.assign h target).1.isFailure = true) : (n.assign h target).2 = n := by
  cases n with
  | typedef d =>
    have ha : (d.assign target).1.isFailure = true := ha
    show Node.typedef (d.assign target).2 = .typedef d
    unfold Typedef.assign at ha ⊢
    by_cases hd : d.target.isSome = true
    · rw [if_pos hd]
    · rw [if_neg hd] at ha
      cases ha
  | _ => rfl

theorem Node.append_fails (h : Handle) (field : Field) (n : Node)
    (ha : (n.append h field).1.isFailure = true) : (n.append h field).2 = n := by
  cases n with
  | container kind c => cases ha
  | _ => rfl

theorem Node.tagWith_fails (tag : String) (n : Node)
    (ha : (n.tagWith tag).1.isFailure = true) : (n.tagWith tag).2 = n := by
  cases n with
  | container kind c => cases ha
  | enumeration e => cases ha
  | _ => rfl

namespace Graph

variable {g g' : Graph} {e : Edit} {a : Answer}

theorem set_same {h : Handle} {n : Node} (hn : g.get? h = some n) : g.set h n = g := by
  have hnodes : g.nodes.setIfInBounds h.index n = g.nodes := by
    apply Array.ext_getElem?
    intro i
    rw [Array.getElem?_setIfInBounds]
    by_cases hi : h.index = i
    · subst hi
      have hlt : h.index < g.nodes.size := lt_of_get? hn
      rw [if_pos rfl, if_pos hlt]
      exact hn.symm
    · rw [if_neg hi]
  unfold set
  rw [hnodes]

theorem mapModule_same {f : Module → Module} (hf : f g.module = g.module) : g.mapModule f = g := by
  unfold mapModule
  rw [hf]

section
variable (g : Graph) (h : Handle) (absent : Answer) {f : Node → Answer × Node}

theorem atNode_turns (hf : ∀ n : Node, n.Turns (f n).2) :
    g.Turns (g.atNode h f absent).2 := by
  unfold atNode
  cases hn : g.get? h with
  | none => exact .refl g
  | some n => exact turns_set hn (hf n)

theorem atNode_fails (hf : ∀ n, (f n).1.isFailure = true → (f n).2 = n)
    (ha : (g.atNode h f absent).1.isFailure = true) : (g.atNode h f absent).2 = g := by
  unfold atNode at ha ⊢
  cases hn : g.get? h with
  | none => rfl
  | some n =>
    simp only [hn] at ha ⊢
    rw [hf n ha, set_same hn]

end

/-- Whatever is done to a graph, its nodes turn at most. -/
theorem edit_turns (h : g.edit e = .ok (a, g')) : g.Turns g' := by
  cases e with
  | add n =>
    cases h
    exact g.turns_add n
  | fundamental words =>
    cases h
    exact (g.turns_fundamental words).1
  | pointer target =>
    cases h
    exact g.turns_add _
  | array target dim =>
    cases h
    exact g.turns_add _
  | assignTarget k target =>
    have hturns := g.atNode_turns k (.refused (.notTypedef k)) (Node.assign_turns k target)
    rwa [Except.ok.inj h] at hturns
  | appendField k field =>
    have hturns := g.atNode_turns k (.refused (.notAggregate k)) (Node.append_turns k field)
    rwa [Except.ok.inj h] at hturns
  | setTag k tag =>
    have hturns := g.atNode_turns k (.changed false) (Node.tagWith_turns tag)
    rwa [Except.ok.inj h] at hturns
  | push k =>
    cases h
    exact g.turns_mapModule _
  | insert index k =>
    cases h
    exact g.turns_mapModule _
  | spliceBefore anchor hs =>
    cases h
    exact g.turns_mapModule _
  | remove k =>
    cases h
    exact g.turns_mapModule _
  | unnest =>
    obtain ⟨_, hu, h⟩ := exists_of_bind h
    cases h
    exact unnest_turns hu

/-- An edit that fails leaves the whole graph as it was. -/
theorem edit_fails (h : g.edit e = .ok (a, g')) (ha : a.isFailure = true) : g' = g := by
  cases e with
  | add n =>
    cases h
    cases ha
  | fundamental words =>
    cases h
    cases ha
  | pointer target =>
    cases h
    cases ha
  | array target dim =>
    cases h
    cases ha
  | assignTarget k target =>
    have hfails := g.atNode_fails k (.refused (.notTypedef k)) (Node.assign_fails k target)
    rw [Except.ok.inj h] at hfails
    exact hfails ha
  | appendField k field =>
    have hfails := g.atNode_fails k (.refused (.notAggregate k)) (Node.append_fails k field)
    rw [Except.ok.inj h] at hfails
    exact hfails ha
  | setTag k tag =>
    have hfails := g.atNode_fails k (.changed false) (Node.tagWith_fails tag)
    rw [Except.ok.inj h] at hfails
    exact hfails ha
  | push k =>
    cases h
    have hmem : g.module.contains k = true := by simpa [Answer.isFailure] using ha
    exact mapModule_same (if_pos hmem)
  | insert index k =>
    cases h
    cases ha
  | spliceBefore anchor hs =>
    cases h
    cases ha
  | remove k =>
    cases h
    have hnot : k ∉ g.module.items := by simpa [Answer.isFailure, Module.position?] using ha
    exact mapModule_same (congrArg Module.mk (List.erase_of_not_mem hnot))
  | unnest =>
    obtain ⟨_, hu, h⟩ := exists_of_bind h
    cases h
    cases ha

/-- The operations that may refuse are the ones that the rest of the program calls. -/
theorem edit_assignTarget (g : Graph) (h target : Handle) :
    g.edit (.assignTarget h target) = .ok (match g.assignTarget h target with
      | .ok g' => (.done, g')
      | .error e => (.refused e, g)) := by
  show Except.ok (g.atNode h (Node.assign h target) (.refused (.notTypedef h))) = _
  unfold atNode assignTarget
  cases hn : g.get? h with
  | none => rfl
  | some n =>
    cases n with
    | typedef d =>
      cases ht : d.target with
      | none => simp [Node.assign, Typedef.assign, ht]
      | some k => simp [Node.assign, Typedef.assign, ht, set_same hn]
    | _ => exact congrArg (fun g' => Except.ok (_, g')) (set_same hn)

theorem edit_appendField (g : Graph) (h : Handle) (field : Field) :
    g.edit (.appendField h field) = .ok (match g.appendField h field with
      | .ok g' => (.done, g')
      | .error e => (.refused e, g)) := by
  show Except.ok (g.atNode h (Node.append h field) (.refused (.notAggregate h))) = _
  unfold atNode appendField modifyContainer
  cases hn : g.get? h with
  | none => rfl
  | some n =>
    cases n with
    | container kind c => rfl
    | _ => exact congrArg (fun g' => Except.ok (_, g')) (set_same hn)

theorem edit_setTag (g : Graph) (h : Handle) (tag : String) :
    g.edit (.setTag h tag) =
      .ok (.changed ((g.get? h).any Node.isAggregate), g.setTag h tag) := by
  show Except.ok (g.atNode h (Node.tagWith tag) (.changed false)) = _
  unfold atNode setTag
  cases hn : g.get? h with
  | none => rfl
  | some n => cases n <;> rfl

/-! ## Edits in a row -/

/-- What was answered still holds: a handle names a node of the kind that was
made, and the table the node of a fundamental type. -/
structure Bears (g : Graph) (p : Edit × Answer) : Prop where
  node : ∀ h, p.2 = .handle h → ∃ n, g.get? h = some n ∧ p.1.kind? = some n.kindName
  shared : ∀ words, p.1 = .fundamental words →
    ∃ h, p.2 = .handle h ∧ g.fundamentals.find? (Specifier.canonicalKey words) = some h

theorem Bears.turn {p : Edit × Answer} (hb : g.Bears p) (ht : g.Turns g') : g'.Bears p where
  node h hh := by
    obtain ⟨n, hn, hkind⟩ := hb.node h hh
    obtain ⟨n', hn', hnn⟩ := ht.nodes h n hn
    exact ⟨n', hn', hkind.trans (congrArg some hnn.kindName.symm)⟩
  shared words hw := by
    obtain ⟨h, hh, hk⟩ := hb.shared words hw
    exact ⟨h, hh, ht.known _ h hk⟩

theorem edit_makes (hs : g.Shared) {k : Handle} (h : g.edit e = .ok (.handle k, g')) :
    ∃ n, g'.get? k = some n ∧ e.kind? = some n.kindName := by
  cases e with
  | add n =>
    cases h
    exact ⟨n, get?_add_next g n, rfl⟩
  | fundamental words =>
    cases h
    obtain ⟨hturns, hk⟩ := g.turns_fundamental words
    exact ⟨_, hturns.shared hs _ _ hk, rfl⟩
  | pointer target =>
    cases h
    exact ⟨_, get?_add_next g _, rfl⟩
  | array target dim =>
    cases h
    exact ⟨_, get?_add_next g _, rfl⟩
  | assignTarget l target =>
    rw [edit_assignTarget] at h
    split at h <;> cases h
  | appendField l field =>
    rw [edit_appendField] at h
    split at h <;> cases h
  | setTag l tag =>
    rw [edit_setTag] at h
    cases h
  | unnest =>
    obtain ⟨_, _, h⟩ := exists_of_bind h
    cases h
  | push => cases h
  | insert => cases h
  | spliceBefore => cases h
  | remove => cases h

theorem edit_bears (hs : g.Shared) (h : g.edit e = .ok (a, g')) : g'.Bears (e, a) where
  node k hk := by
    have hk : a = .handle k := hk
    exact edit_makes hs (hk ▸ h)
  shared words he := by
    have he : e = .fundamental words := he
    subst he
    cases h
    exact ⟨_, rfl, (g.turns_fundamental words).2⟩

theorem edits_bear {es : List Edit} {log : List (Edit × Answer)} (hs : g.Shared)
    (h : g.edits es = .ok (log, g')) : g.Turns g' ∧ ∀ p ∈ log, g'.Bears p := by
  induction es generalizing g log with
  | nil =>
    cases h
    exact ⟨.refl _, fun _ hp => nomatch hp⟩
  | cons e es ih =>
    obtain ⟨⟨answer, g₁⟩, hedit, h⟩ := exists_of_bind h
    obtain ⟨⟨rest, g₂⟩, hrest, h⟩ := exists_of_bind h
    cases h
    have hturn := edit_turns hedit
    obtain ⟨hturns, hbears⟩ := ih (hturn.shared hs) hrest
    refine ⟨hturn.trans hturns, fun p hp => ?_⟩
    rcases List.mem_cons.mp hp with rfl | hp
    · exact (edit_bears hs hedit).turn hturns
    · exact hbears p hp

theorem shared_empty : Graph.empty.Shared := fun _ _ hk => nomatch hk

/-- What holds of the graph `g'` if `log` was answered on the way to `g` and
`log'` on the way from there. -/
structure Keeps (log log' : List (Edit × Answer)) (g g' : Graph) : Prop where
  /-- A handle that was answered names a node of the kind that was made. -/
  handles : ∀ e h, (e, Answer.handle h) ∈ log → ∃ n, g'.get? h = some n ∧ e.kind? = some n.kindName
  /-- A fundamental type was answered the one node of its key. -/
  fundamentals : ∀ words a, (Edit.fundamental words, a) ∈ log → ∃ h, a = .handle h ∧
    g'.get? h = some (.fundamental (.ofKey (Specifier.canonicalKey words))) ∧
    ∀ words' h', (Edit.fundamental words', Answer.handle h') ∈ log ++ log' →
      (h' = h ↔ Specifier.canonicalKey words' = Specifier.canonicalKey words)
  targets : ∀ h d, g.get? h = some (.typedef d) → d.target.isSome = true →
    g'.get? h = some (.typedef d)
  failures : ∀ e a g'', g'.edit e = .ok (a, g'') → a.isFailure = true → g'' = g'

/-- Whatever was done to the empty graph and is done to it after that, handles keep
naming what they were answered for, and typedefs keep their targets. -/
theorem edits_keep {es es' : List Edit} {log log' : List (Edit × Answer)} {g g' : Graph}
    (h : Graph.empty.edits es = .ok (log, g)) (h' : g.edits es' = .ok (log', g')) :
    Keeps log log' g g' := by
  obtain ⟨hempty, hlog⟩ := edits_bear shared_empty h
  have hs : g.Shared := hempty.shared shared_empty
  obtain ⟨hturns, hlog'⟩ := edits_bear hs h'
  have hs' : g'.Shared := hturns.shared hs
  have hbears : ∀ p ∈ log ++ log', g'.Bears p := by
    intro p hp
    rcases List.mem_append.mp hp with hp | hp
    · exact (hlog p hp).turn hturns
    · exact hlog' p hp
  constructor
  case handles => exact fun e k hk => (hbears _ (List.mem_append_left _ hk)).node k rfl
  case fundamentals =>
    intro words a hmem
    obtain ⟨k, ha, hk⟩ := (hbears _ (List.mem_append_left _ hmem)).shared words rfl
    have hnode := hs' _ k hk
    refine ⟨k, ha, hnode, fun words' k' hmem' => ?_⟩
    obtain ⟨l, hl, hk'⟩ := (hbears _ hmem').shared words' rfl
    cases hl
    constructor
    · -- the node tells the key
      intro hkk
      have hnode' := hs' _ k' hk'
      rw [hkk, hnode, Option.some.injEq, Node.fundamental.injEq] at hnode'
      have hnames := congrArg Fundamental.cName hnode'
      rw [Fundamental.cName_ofKey, Fundamental.cName_ofKey] at hnames
      exact hnames.symm
    · intro hkey
      rw [hkey, hk] at hk'
      exact (Option.some.inj hk').symm
  case targets =>
    intro k d hd ht
    obtain ⟨n, hn, hturn⟩ := hturns.nodes k _ hd
    cases hturn with
    | refl => exact hn
    | typedef d' unset =>
      rw [unset] at ht
      cases ht
  case failures => exact fun e a g'' => edit_fails

namespace Sample

def synonym : Typedef := ⟨"T", none, none⟩

/-- `long` in two spellings, a typedef of it, and a struct with a struct inside. -/
def building : List Edit := [.fundamental ["int", "long"], .add (.typedef synonym),
  .assignTarget ⟨1⟩ ⟨0⟩, .add (.container .struct ⟨none, [], none⟩),
  .appendField ⟨2⟩ ⟨"x", ⟨1⟩, .readWrite, false⟩, .add (.container .struct ⟨none, [], none⟩),
  .setTag ⟨3⟩ "S", .appendField ⟨3⟩ ⟨"in", ⟨2⟩, .readWrite, true⟩, .push ⟨3⟩]

def going : List Edit := [.fundamental ["long"], .assignTarget ⟨1⟩ ⟨2⟩, .assignTarget ⟨2⟩ ⟨0⟩,
  .setTag ⟨1⟩ "T", .push ⟨3⟩, .remove ⟨1⟩, .unnest, .pointer ⟨3⟩]

end Sample

theorem edits_keep_sample : ∃ log g log' g', Graph.empty.edits Sample.building = .ok (log, g) ∧
    g.edits Sample.going = .ok (log', g') ∧
    log'.map Prod.snd = [.handle ⟨0⟩, .refused (.duplicateTarget "T"), .refused (.notTypedef ⟨2⟩),
      .changed false, .changed false, .stood none, .unnested ⟨1, 1⟩, .handle ⟨5⟩] ∧
    Keeps log log' g g' := by
  have h : ∃ r ∈ (Graph.empty.edits Sample.building).toOption,
      ∃ r' ∈ (r.2.edits Sample.going).toOption,
        r'.1.map Prod.snd = [.handle ⟨0⟩, .refused (.duplicateTarget "T"),
          .refused (.notTypedef ⟨2⟩), .changed false, .changed false, .stood none,
          .unnested ⟨1, 1⟩, .handle ⟨5⟩] := by decide +kernel
  obtain ⟨r, hr, r', hr', hanswers⟩ := h
  have hbuilt : Graph.empty.edits Sample.building = .ok (r.1, r.2) := eq_ok_of_mem_toOption hr
  have hgone : r.2.edits Sample.going = .ok (r'.1, r'.2) := eq_ok_of_mem_toOption hr'
  exact ⟨r.1, r.2, r'.1, r'.2, hbuilt, hgone, hanswers, edits_keep hbuilt hgone⟩

end Graph

end CythonDecls
