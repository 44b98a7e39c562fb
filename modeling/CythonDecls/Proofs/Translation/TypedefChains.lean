import CythonDecls.Proofs.Translation.NameTables

/-!
# Chains of typedefs

A typedef is entered before its target is read. A word of the target may so be
an earlier typedef, or the one that is being read, and that is the only way in
which a chain of typedefs fails to end: a typedef of `T` for the name `T` is
taken for one of itself instead of being refused.
-/

namespace CythonDecls

def Item.typedef? : Item → Option TypedefDecl
  | .typedef d => some d
  | _ => none

/-- The first typedef of a name, which is the one that is read. -/
def firstTypedef? (is : List Item) (name : String) : Option TypedefDecl :=
  (is.filterMap Item.typedef?).find? (·.name = name)

/-- The first typedef of a name is for that name. -/
def NamesItself (is : List Item) (name : String) : Prop :=
  ∃ d, firstTypedef? is name = some d ∧ d.type = .identifier [name]

section
variable {is : List Item} {name : String}

theorem firstTypedef?_append (js : List Item) :
    firstTypedef? (is ++ js) name = (firstTypedef? is name).or (firstTypedef? js name) := by
  simp [firstTypedef?]

@[simp] theorem firstTypedef?_typedef (d : TypedefDecl) :
    firstTypedef? [.typedef d] name = if d.name = name then some d else none := by
  by_cases h : d.name = name <;> simp [firstTypedef?, Item.typedef?, h]

theorem namesItself_append (js : List Item) (h : (firstTypedef? is name).isSome) :
    NamesItself (is ++ js) name ↔ NamesItself is name := by
  obtain ⟨d, hd⟩ := Option.isSome_iff_exists.mp h
  simp [NamesItself, firstTypedef?_append, hd]

theorem namesItself_typedef {d : TypedefDecl} (h : firstTypedef? is d.name = none) :
    NamesItself (is ++ [.typedef d]) d.name ↔ d.type = .identifier [d.name] := by
  simp [NamesItself, firstTypedef?_append, h]

end

/-! ## Targets -/

theorem Node.eq_of_typedef? {n : Node} {d : Typedef} (h : n.typedef? = some d) :
    n = .typedef d := by
  cases n <;> cases h
  rfl

namespace Graph

def Target (g : Graph) (h k : Handle) : Prop :=
  ∃ d, g.get? h = some (.typedef d) ∧ d.target = some k

/-- Following targets from `h` leads to a node that is no typedef. -/
def Ends (g : Graph) (h : Handle) : Prop :=
  ∃ k n, Relation.ReflTransGen g.Target h k ∧ g.get? k = some n ∧ n.typedef? = none

section
variable {g : Graph} {h k l : Handle}

theorem target_unique : Relator.RightUnique g.Target := by
  rintro h k l ⟨d, hd, hk⟩ ⟨e, he, hl⟩
  rw [hd] at he
  cases he
  exact Option.some.inj (hk.symm.trans hl)

theorem Ends.not_loop (he : g.Ends h) (hk : Relation.ReflTransGen g.Target h k) :
    ¬g.Target k k := by
  intro hloop
  obtain ⟨l, n, hl, hn, hno⟩ := he
  have hstop {m : Handle} : ¬g.Target l m := by
    rintro ⟨d, hd, _⟩
    rw [hn] at hd
    cases hd
    cases hno
  have hstay {m : Handle} (hm : Relation.ReflTransGen g.Target k m) : m = k := by
    induction hm with
    | refl => rfl
    | tail _ hstep ih =>
      subst ih
      exact target_unique hstep hloop
  rcases hk.total_of_right_unique target_unique hl with hkl | hlk
  · exact hstop (hstay hkl ▸ hloop)
  · rcases hlk.cases_head with rfl | ⟨m, hm, _⟩
    · exact hstop hloop
    · exact hstop hm

end

end Graph

/-! ## What is known while items are read -/

/-- The typedef `d` of `h` has a target: a node that is no typedef, an earlier typedef, or
`h` itself if `d` is so written. -/
def Descends (is : List Item) (g : Graph) (h : Handle) (d : Typedef) : Prop :=
  ∃ k n, d.target = some k ∧ g.get? k = some n ∧ (n.typedef?.isSome → k.index ≤ h.index) ∧
    (k = h ↔ NamesItself is d.name)

namespace Translator

/-- The typedefs of the graph are those of the items, and have their targets. -/
structure Chained (is : List Item) (t : Translator) : Prop where
  known : ∀ name, (t.typedefs.find? name).isSome = (firstTypedef? is name).isSome
  targets : ∀ h d, t.graph.get? h = some (.typedef d) → Descends is t.graph h d

theorem Chained.start : start.Chained [] where
  known _ := rfl
  targets _ _ hd := by cases hd

theorem Chained.find?_eq_none {is : List Item} {t : Translator} (hc : t.Chained is)
    {name : String} : t.typedefs.find? name = none ↔ firstTypedef? is name = none := by
  rw [← Option.not_isSome_iff_eq_none, hc.known, Option.not_isSome_iff_eq_none]

section
variable {is : List Item} {t t' : Translator} (hc : t.Chained is) (s : t.Sound)
  (e : t.graph.Grows t'.graph)
include hc s e

theorem Chained.grow (js : List Item) {h : Handle} {d : Typedef} {name : String}
    (hf : t.typedefs.find? name = some h) (hd : t'.graph.get? h = some (.typedef d)) :
    Descends (is ++ js) t'.graph h d := by
  obtain ⟨d₀, hd₀, rfl⟩ := s.typedefs name h hf
  obtain ⟨k, n, hk, hn, hle, hself⟩ := hc.targets h d₀ hd₀
  obtain ⟨m, hm, hb⟩ := e h _ hd₀
  have hsame : m = .typedef d₀ := by
    cases hb with
    | refl => rfl
    | typedef _ hnone => simp [hk] at hnone
  rw [hm, hsame] at hd
  cases hd
  obtain ⟨n', hn', hb'⟩ := e k n hn
  refine ⟨k, n', hk, hn', fun ht => hle ?_, hself.trans (namesItself_append js ?_).symm⟩
  · cases hb' <;> exact ht
  · simp [← hc.known, hf]

theorem Chained.keep (a : t'.Accounted) (ht : t'.typedefs = t.typedefs) {i : Item}
    (hi : ∀ name, (firstTypedef? [i] name).isSome → (firstTypedef? is name).isSome) :
    t'.Chained (is ++ [i]) where
  known name := by
    rw [ht, hc.known, firstTypedef?_append, Option.isSome_or]
    grind
  targets h d hd := hc.grow s e [i] (ht ▸ a.typedefs h d hd) hd

end

end Translator

namespace Walk

open Translator

section
variable {is : List Item} {t : Translator} (hc : t.Chained is) (s : t.Sound) (a : t.Accounted)
include hc s a

theorem typedef_chained (d : TypedefDecl) (hf : t.typedefs.find? d.name = none) :
    Ensures t (typedef d) fun _ t' => t'.Chained (is ++ [.typedef d]) := by
  intro h t' hrun
  have hgrow := ((typedef_leads s d).ok hrun).2.1.graph
  obtain ⟨rfl, target, t₁, e, hr, he, hname, -, rfl⟩ := typedef_target s d hf h t' hrun
  have s₀ := s.withTypedef d
  have a₁ := ((walks_account.1 _ d.type _ s₀ (a.withTypedef d hf)).ok hr).1
  obtain ⟨_, _, hw, hd⟩ := (resolve_leads s₀ _ d.type).ok hr
  rw [typedefs_withTypedef] at hd
  have ht : t₁.typedefs = t.typedefs.insert d.name t.graph.next := hw.typedefs
  have hset := Graph.get?_set_self he (.typedef { e with target := some target })
  have hne {k : Handle} (hk : k ≠ t.graph.next) :=
    Graph.get?_set_ne t₁.graph hk (.typedef { e with target := some target })
  have hnew : firstTypedef? is d.name = none := hc.find?_eq_none.mp hf
  constructor
  case known =>
    intro name
    rw [ht, Table.find?_insert, firstTypedef?_append, firstTypedef?_typedef, Option.isSome_or,
      ← hc.known]
    grind
  case targets =>
    intro h f hh
    by_cases hnext : h = t.graph.next
    · subst hnext
      rw [hset] at hh
      cases hh
      obtain ⟨n, hn⟩ := Graph.get?_of_lt ((Graph.size_set t₁.graph ..).symm ▸ hd.lt)
      refine ⟨target, n, rfl, hn, fun hty => ?_, ?_⟩
      · -- the typedefs there are so far are the ones from before and this one
        by_cases htn : target = t.graph.next
        · exact htn ▸ Nat.le_refl _
        · rw [hne htn] at hn
          cases n with
          | typedef f =>
            obtain ⟨_, hg, _⟩ := s₀.typedefs _ target (ht ▸ a₁.typedefs target f hn)
            have hlt := Graph.lt_of_get? hg
            rw [graph_withTypedef, Graph.size_add] at hlt
            exact Nat.le_of_lt_succ hlt
          | _ => cases hty
      · simp only [hname, namesItself_typedef hnew]
        constructor
        · intro htn
          exact hname ▸ hd.of_typedef (htn ▸ he)
        · intro hty
          rw [hty] at hd
          simp [Denotes, DenotesWords, namedTypedef?, Table.find?_insert] at hd
          exact hd.1
    -- any other typedef got its target before, and keeps it
    · have hfind := a₁.typedefs h f ((hne hnext).symm.trans hh)
      rw [ht, Table.find?_insert] at hfind
      split at hfind
      · cases hfind
        exact absurd rfl hnext
      · exact hc.grow s hgrow _ hfind hh

theorem item_chained (i : Item) : Ensures t (item i) fun _ t' => t'.Chained (is ++ [i]) := by
  by_cases hnew : ∃ d, i = .typedef d ∧ t.typedefs.find? d.name = none
  · obtain ⟨d, rfl, hf⟩ := hnew
    refine .bind (typedef_leads s d) (typedef_chained hc s a d hf) ?_
    intro h t₁ _ _ _ hc₁ _ _ hrun
    cases hrun
    exact ⟨hc₁.known, hc₁.targets⟩
  · have hall : ∀ name, i.typedefName? = some name → (t.typedefs.find? name).isSome := by
      intro name hname
      cases i with
      | typedef d =>
        cases hname
        apply Option.isSome_iff_ne_none.mpr
        exact fun hf => hnew ⟨d, rfl, hf⟩
      | _ => cases hname
    intro x t' hrun
    have e := ((item_leads s i).ok hrun).2.1.graph
    have a' := ((item_accounts s a i).ok hrun).1
    have ht : t'.typedefs = t.typedefs := by
      rcases item_places s i x t' hrun with rfl | ⟨t₁, y, ht, _, rfl⟩
      · rfl
      · exact ht hall
    refine hc.keep s e a' ht fun name h => ?_
    rw [← hc.known]
    apply hall
    cases i with
    | typedef d =>
      by_cases hname : d.name = name
      · exact congrArg some hname
      · simp [hname] at h
    | _ => cases h

end

theorem items_chained (before is : List Item) {t : Translator} (hc : t.Chained before)
    (s : t.Sound) (a : t.Accounted) :
    Accounts t (is.forM item) fun _ t' => t'.Chained (before ++ is) := by
  induction is generalizing before t with
  | nil => exact .pure a (by simpa using hc)
  | cons i is ih =>
    have hi : Accounts t (item i) fun _ t' => t'.Chained (before ++ [i]) :=
      ⟨(item_accounts s a i).1, item_chained hc s a i⟩
    refine .bind (item_leads s i) hi ?_
    intro _ t₁ s₁ _ a₁ _ hc₁
    simpa using ih (before ++ [i]) hc₁ s₁ a₁

theorem identifier_known {t : Translator} (words : List String) (location : Option Location) :
    Ensures t (identifier words location) fun _ _ =>
      (namedTypedef? t.typedefs words).isSome ∨ Specifier.isSequence words := by
  obtain hg | ⟨-, hrun⟩ := identifier_cases (t := t) words location
  · exact .of_gives hg fun _ _ r => r.resolves
  · exact .of_error hrun

theorem typedef_words {is : List Item} {t : Translator} (hc : t.Chained is) (s : t.Sound)
    {d : TypedefDecl} {words : List String} (hnew : firstTypedef? is d.name = none)
    (hd : d.type = .identifier words) :
    Ensures t (typedef d) fun _ _ => Specifier.isSequence words ∨
      ∃ name, words = [name] ∧ (name = d.name ∨ (firstTypedef? is name).isSome) := by
  have hf : t.typedefs.find? d.name = none := hc.find?_eq_none.mpr hnew
  refine .of_run (typedef_new d hf) ?_
  have hl := resolve_leads (s.withTypedef d) ⟨some d.name, none, d.location, .typedefTarget⟩ d.type
  have hk := identifier_known (t := t.withTypedef d) words d.location
  rw [hd] at hl ⊢
  refine .bind hl hk ?_
  intro target t₁ _ _ _ hknown _ _ _
  refine hknown.symm.imp_right fun hsome => ?_
  unfold namedTypedef? at hsome
  split at hsome
  · rename_i name _
    refine ⟨name, rfl, ?_⟩
    rw [← hc.known]
    simp only [typedefs_withTypedef, Table.find?_insert] at hsome
    grind
  · cases hsome

end Walk

/-! ## Accepted units -/

/-- Where the chain of targets from a typedef does not end, it comes to a typedef that names
itself. -/
theorem Translator.Chained.ends_iff {is : List Item} {t : Translator} (hc : t.Chained is)
    {h : Handle} {d : Typedef} (hd : t.graph.get? h = some (.typedef d)) :
    t.graph.Ends h ↔ ¬∃ k e, Relation.ReflTransGen t.graph.Target h k ∧
      t.graph.get? k = some (.typedef e) ∧ NamesItself is e.name := by
  constructor
  · intro hends hloop
    obtain ⟨k, e, hk, he, hself⟩ := hloop
    obtain ⟨l, n, hl, _, _, hiff⟩ := hc.targets k e he
    have hlk : l = k := hiff.mpr hself
    exact hends.not_loop hk ⟨e, he, hlk ▸ hl⟩
  · intro hno
    -- targets of typedefs are earlier ones, as none names itself
    induction hi : h.index using Nat.strong_induction_on generalizing h d with
    | _ i ih =>
      obtain ⟨k, n, hk, hn, hle, hiff⟩ := hc.targets h d hd
      have hstep : t.graph.Target h k := ⟨d, hd, hk⟩
      cases hty : n.typedef? with
      | none => exact ⟨k, n, .single hstep, hn, hty⟩
      | some f =>
        have hnode : t.graph.get? k = some (.typedef f) := by
          rw [hn, Node.eq_of_typedef? hty]
        have hne : k ≠ h := fun he => hno ⟨h, d, .refl, hd, hiff.mp he⟩
        have hlt : k.index < i := by
          have := hle (by rw [hty]; rfl)
          have : k.index ≠ h.index := fun he => hne (by cases k; cases h; simp_all)
          omega
        obtain ⟨l, m, hl, hm⟩ := ih k.index hlt hnode
          (fun ⟨j, e, hj, he⟩ => hno ⟨j, e, .head hstep hj, he⟩) rfl
        exact ⟨l, m, .head hstep hl, hm⟩

/-- The typedefs of an accepted unit have targets, and the chain from a typedef ends
unless it comes to one that names itself. What the first typedef of a name is for is known
when it is read, but that name itself counts as known. -/
theorem SourceUnit.typedefs_end {u : SourceUnit} {g : Graph} (hg : u.translate = .ok g) :
    (∀ h d, g.get? h = some (.typedef d) →
      (∃ k n, d.target = some k ∧ g.get? k = some n) ∧
      (g.Ends h ↔ ¬∃ k e, Relation.ReflTransGen g.Target h k ∧
        g.get? k = some (.typedef e) ∧ NamesItself u.items e.name)) ∧
    ∀ before d after words, u.items = before ++ .typedef d :: after →
      firstTypedef? before d.name = none → d.type = .identifier words →
        Specifier.isSequence words ∨
          ∃ name, words = [name] ∧ (name = d.name ∨ (firstTypedef? before name).isSome) := by
  obtain ⟨t, hrun, rfl⟩ := translate_ok hg
  constructor
  · intro h d hd
    have hc := (Walk.items_chained [] u.items .start .start .start).2 _ t hrun
    rw [List.nil_append] at hc
    obtain ⟨k, n, hk, hn, _⟩ := hc.targets h d hd
    exact ⟨⟨k, n, hk, hn⟩, hc.ends_iff hd⟩
  · intro before d after words hitems hnew hd
    have hrest : Walk.Ensures .start (u.items.forM Walk.item) fun _ _ =>
        Specifier.isSequence words ∨
          ∃ name, words = [name] ∧ (name = d.name ∨ (firstTypedef? before name).isSome) := by
      rw [hitems, List.forM_eq_forM, List.forM_append]
      refine .bind (Walk.items_lead .start before)
        (Walk.items_chained [] before .start .start .start).2 ?_
      intro _ t₁ s₁ _ _ hc₁
      refine .bind (Walk.item_leads s₁ (.typedef d)) (Q := fun _ _ => _) ?_
        fun _ _ _ _ _ hq _ _ _ => hq
      exact .bind (Walk.typedef_leads s₁ d) (Walk.typedef_words hc₁ s₁ hnew hd)
        fun _ _ _ _ _ hq _ _ _ => hq
    exact hrest _ t hrun

namespace Sample

def size : TypedefDecl := ⟨"size", .identifier ["long", "unsigned"], none⟩

def length : TypedefDecl := ⟨"length", .word "size", none⟩

def lengths : SourceUnit := ⟨"length.h", [.typedef size, .typedef length]⟩

def own : TypedefDecl := ⟨"T", .word "T", none⟩

def itself : SourceUnit := ⟨"self.h", [.typedef own]⟩

end Sample

/-- From `length` to `size` to `unsigned long`. -/
theorem typedefs_end_lengths : ∃ g d, Sample.lengths.translate = .ok g ∧
    g.get? ⟨2⟩ = some (.typedef d) ∧ d.name = "length" ∧
    ((∃ k n, d.target = some k ∧ g.get? k = some n) ∧
      (g.Ends ⟨2⟩ ↔ ¬∃ k e, Relation.ReflTransGen g.Target ⟨2⟩ k ∧
        g.get? k = some (.typedef e) ∧ NamesItself Sample.lengths.items e.name)) ∧
    (firstTypedef? [.typedef Sample.size] "length" = none ∧
      Sample.length.type = .identifier ["size"] ∧
      (Specifier.isSequence ["size"] ∨ ∃ name, ["size"] = [name] ∧
        (name = "length" ∨ (firstTypedef? [.typedef Sample.size] name).isSome))) := by
  have hall := SourceUnit.typedefs_end (u := Sample.lengths) rfl
  exact ⟨_, ⟨"length", some ⟨0⟩, none⟩, rfl, rfl, rfl, hall.1 _ _ rfl, rfl, rfl,
    hall.2 [.typedef Sample.size] Sample.length [] ["size"] rfl rfl rfl⟩

/-- The typedef `T` is its own target. -/
theorem itself_not_ends : ∃ g d, Sample.itself.translate = .ok g ∧
    g.get? ⟨0⟩ = some (.typedef d) ∧ d.target = some ⟨0⟩ ∧ ¬g.Ends ⟨0⟩ :=
  ⟨_, ⟨"T", some ⟨0⟩, none⟩, rfl, rfl, rfl, fun h => h.not_loop .refl ⟨_, rfl, rfl⟩⟩

end CythonDecls
