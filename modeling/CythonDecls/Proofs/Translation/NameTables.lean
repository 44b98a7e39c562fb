import CythonDecls.Proofs.Translation.Faithful
import CythonDecls.Proofs.Translation.ItemWalks
import CythonDecls.Proofs.Translation.References
import CythonDecls.Proofs.Unnest.Names

/-!
# The name tables and the graph agree

Whatever a translator was fed, units that failed included, an entry of a name
table leads to a node of that name, and each node that has a name is the entry
of it, unless the name was made up. A made-up tag is free when it is made up,
but nothing keeps a later declaration from taking it too: one tag then names
two nodes.
-/

namespace CythonDecls

namespace Walk

open Translator

section
variable {t : Translator} (s : t.Sound) (a : t.Accounted)

section
include a

theorem place_accounts (h : Handle) : Accounts t (place h) fun _ t' => t'.lookup = t.lookup := by
  unfold place
  apply Accounts.modify
  · exact a.retain (.refl t.graph) rfl (lookup_congr rfl rfl rfl) fun _ => id
  · exact lookup_congr rfl rfl rfl

theorem placeTagged_accounts (h : Handle) (defines : Bool) :
    Accounts t (placeTagged h defines) fun _ t' => t'.lookup = t.lookup := by
  cases defines with
  | false => exact place_accounts a h
  | true =>
    have a₁ : Accounted { t with graph := t.graph.mapModule (·.remove h) } :=
      a.retain (.refl t.graph) rfl (lookup_congr rfl rfl rfl) fun _ => id
    exact .of_run (r := { t with graph := t.graph.mapModule (·.remove h) }) rfl
      ((place_accounts a₁ h).weaken fun _ _ hl => hl.trans (lookup_congr rfl rfl rfl))

end

include s a

/-- The node of a typedef and its entry are made together, so no name is open in between. -/
theorem typedef_accounts (d : TypedefDecl) :
    Accounts t (typedef d) fun _ t' => t.TagsFrom t' d.type.tags := by
  cases hf : t.typedefs.find? d.name with
  | some h =>
    exact .of_run (v := Pure.pure h) (typedef_known d hf) (.pure a (.of_lookup rfl))
  | none =>
    have s₁ := s.withTypedef d
    have a₁ := a.withTypedef d hf
    refine .of_run (typedef_new d hf) ?_
    refine .bind (resolve_leads s₁ _ d.type) (walks_account.1 _ d.type _ s₁ a₁) ?_
    rintro target t₂ s₂ _ a₂ ⟨_, hd⟩ ⟨_, htags, _⟩
    have hkeep (g : Graph) (hg : t₂.graph.assignTarget t.graph.next target = .ok g) :
        t₂.graph.Retains g := by
      obtain ⟨d₂, hd₂, hnone, rfl⟩ := Graph.assignTarget_ok hg
      exact Graph.retains_set hd₂ (.typedef rfl hnone)
    refine .bind (assignTarget_leads s₂ hd.lt) (tryGraph_accounts a₂ hkeep) ?_
    rintro _ t₃ _ _ a₃ _ ⟨g, _, rfl⟩
    exact .pure a₃ (htags.congr (lookup_congr rfl rfl rfl) (lookup_congr rfl rfl rfl))

theorem declare_accounts (name : String) (type : TypeExpr) (location : Option Location) :
    Accounts t (declare name type location) fun _ t' => t.TagsFrom t' type.tags := by
  by_cases hty : ∃ sig, type = .function sig
  · obtain ⟨sig, rfl⟩ := hty
    unfold declare
    apply Accounts.get
    split
    · exact .pure a (.of_lookup rfl)
    · refine .bind (function_leads s name location sig)
        (walks_account.2.1 name location sig t s a) ?_
      rintro h t₁ s₁ _ a₁ ⟨_, f, hn, rfl⟩ ⟨_, htags⟩
      have a₂ : Accounted { t₁ with functions := t₁.functions.insert f.name h } :=
        a₁.retain (.refl _) rfl (lookup_congr rfl rfl rfl) fun _ => id
      refine .of_run (r := { t₁ with functions := t₁.functions.insert f.name h }) rfl
        ((place_accounts a₂ h).weaken fun _ _ hl => ?_)
      exact htags.congr rfl (hl.trans (lookup_congr rfl rfl rfl))
  · rw [declare_variable name location fun sig he => hty ⟨sig, he⟩]
    refine .bind (resolve_leads s _ type) (walks_account.1 _ type t s a) ?_
    rintro h t₁ s₁ _ a₁ ⟨_, hd⟩ ⟨_, htags, _⟩
    refine .bind (add_leads s₁ (by simpa [Node.children] using hd.lt)) (add_accounts a₁ rfl) ?_
    intro v t₂ _ _ a₂ _ hl
    exact (place_accounts a₂ v).weaken fun _ _ hl₂ => htags.congr rfl (hl₂.trans hl)

theorem item_accounts (i : Item) : Accounts t (item i) fun _ t' => t.TagsFrom t' i.tags := by
  cases i with
  | typedef d =>
    refine .bind (typedef_leads s d) (typedef_accounts s a d) ?_
    intro h t₁ _ _ a₁ _ htags
    exact (place_accounts a₁ h).weaken fun _ _ hl => htags.congr rfl hl
  | container kind spec =>
    refine .bind (container_leads s kind none spec)
      (walks_account.2.2.2.1 kind none spec t s a fun _ h => nomatch h) ?_
    rintro h t₁ _ _ a₁ _ ⟨_, htags, _⟩
    exact (placeTagged_accounts a₁ h _).weaken fun _ _ hl => htags.congr rfl hl
  | enumeration spec =>
    refine .bind (enumeration_leads s spec none)
      (enumeration_accounts a s spec fun _ h => nomatch h) ?_
    rintro h t₁ _ _ a₁ _ ⟨_, htags⟩
    exact (placeTagged_accounts a₁ h _).weaken fun _ _ hl => htags.congr rfl hl
  | declaration d =>
    obtain ⟨_ | name, type, location⟩ := d
    · exact .pure a (.of_lookup rfl)
    · exact declare_accounts s a name type location
  | ignored what => exact .pure a (.of_lookup rfl)

theorem items_account (is : List Item) :
    Accounts t (is.forM item) fun _ t' => t.TagsFrom t' (is.flatMap Item.tags) := by
  induction is generalizing t with
  | nil => exact .pure a (.of_lookup rfl)
  | cons i is ih =>
    refine .bind (item_leads s i) (item_accounts s a i) ?_
    intro _ t₁ s₁ _ a₁ _ htags
    exact (ih s₁ a₁).weaken fun _ _ htags₂ => htags.append htags₂

end

end Walk

namespace Translator

theorem Accounted.feed {t : Translator} (s : t.Sound) (a : t.Accounted) (u : SourceUnit) :
    (t.feed u).2.Accounted :=
  (Walk.items_account s a u.items).1

theorem Accounted.feedAll {t : Translator} (s : t.Sound) (a : t.Accounted) (us : List SourceUnit) :
    (t.feedAll us).Accounted := by
  induction us generalizing t with
  | nil => exact a
  | cons u us ih => exact ih (s.feed u).1 (a.feed s u)

/-- The name tables and the graph agree: entries lead to nodes of their name, and named
nodes are entries unless the name was made up. No two nodes have the same made-up tag. -/
structure Agree (t : Translator) : Prop where
  typedefs : ∀ name h, t.typedefs.find? name = some h ↔
    ∃ d, t.graph.get? h = some (.typedef d) ∧ d.name = name
  containers : ∀ kind tag h, (t.containers kind).find? tag = some h →
    ∃ c, t.graph.get? h = some (.container kind c) ∧ c.tag = some tag
  enums : ∀ tag h, t.enums.find? tag = some h →
    ∃ e, t.graph.get? h = some (.enumeration e) ∧ e.tag = some tag
  functions : ∀ name h, t.functions.find? name = some h →
    ∃ f, t.graph.get? h = some (.function f) ∧ f.name = name
  nodes : ∀ h n key, t.graph.get? h = some n → n.key? = some key → key.2 ∉ t.invented →
    t.lookup key = some h
  alone : ∀ h k n m tag, t.graph.get? h = some n → t.graph.get? k = some m →
    n.tag? = some tag → m.tag? = some tag → ¬t.Listed h → ¬t.Listed k → h = k

theorem Accounted.agree {t : Translator} (s : t.Sound) (a : t.Accounted) : t.Agree where
  typedefs name h := by
    constructor
    · exact s.typedefs name h
    · rintro ⟨d, hd, rfl⟩
      exact a.typedefs h d hd
  containers := s.containers
  enums := s.enums
  functions := s.functions
  nodes h n key hn hk hnot := (a.tags h n key hn hk).resolve_right hnot
  alone h k n m tag hn hm hnt hmt hh hk :=
    (a.alone h k n m tag hn hm hnt hmt hh).resolve_right fun hl => hk hl.1

/-- The tables agree with the graph after any units. What is read then holds the entries
of the names it mentions, in the body that it defines as well, and these stay the entries
whatever is read later. -/
theorem tables_agree (us : List SourceUnit) :
    (start.feedAll us).Agree ∧
      (∀ site ty h t, (Walk.resolve site ty).run (start.feedAll us) = (.ok h, t) →
        RefersBody (start.feedAll us).typedefs t h ty ∧
          ∀ after, Refers (start.feedAll us).typedefs (t.feedAll after) ty h) ∧
      ∀ kind spec h t, (Walk.container kind none spec).run (start.feedAll us) = (.ok h, t) →
        RefersBody (start.feedAll us).typedefs t h (.container kind spec) ∧
          ∀ after, Refers (start.feedAll us).typedefs (t.feedAll after)
            (.container kind spec) h := by
  have s := (Sound.start.feedAll us).1
  have a := Accounted.start.feedAll .start us
  have hlater {t : Translator} {ty : TypeExpr} {h : Handle} (st : t.Sound)
      (hr : Refers (start.feedAll us).typedefs t ty h) (after : List SourceUnit) :
      Refers (start.feedAll us).typedefs (t.feedAll after) ty h :=
    hr.extend (st.feedAll after).2
  refine ⟨a.agree s, fun site ty h t hrun => ?_, fun kind spec h t hrun => ?_⟩
  · have st := (Walk.resolve_leads s site ty).1
    rw [hrun] at st
    obtain ⟨hr, _, hb⟩ := (Walk.walks_account.1 site ty _ s a).2 h t hrun
    exact ⟨hb, hlater st hr⟩
  · have st := (Walk.container_leads s kind none spec).1
    rw [hrun] at st
    obtain ⟨hr, _, hb⟩ :=
      (Walk.walks_account.2.2.2.1 kind none spec _ s a fun _ h => nomatch h).2 h t hrun
    exact ⟨hb, hlater st hr⟩

end Translator

namespace Sample

def mentionedName : TypedefDecl := ⟨"S_t", .container .struct (.reference "S"), none⟩

def mentioned : SourceUnit :=
  ⟨"s.h", [.container .struct (.reference "S"), .typedef mentionedName]⟩

def linkedSpec : ContainerSpec := .body (some "S")
  [.named "next" (.pointer (.container .struct (.reference "S"))),
    .named "other" (.pointer (.word "S_t"))]

end Sample

/-- The definition of a struct that was mentioned before, and partly read in a unit that failed. -/
theorem tables_agree_linkedSpec :
    ∃ h t, (Walk.container .struct none Sample.linkedSpec).run
        (Translator.start.feedAll [Sample.mentioned, Sample.broken]) = (.ok h, t) ∧
      (Translator.start.feedAll [Sample.mentioned, Sample.broken]).Agree ∧
      RefersBody (Translator.start.feedAll [Sample.mentioned, Sample.broken]).typedefs t h
        (.container .struct Sample.linkedSpec) ∧
      ∀ after, Refers (Translator.start.feedAll [Sample.mentioned, Sample.broken]).typedefs
        (t.feedAll after) (.container .struct Sample.linkedSpec) h := by
  have hall := Translator.tables_agree [Sample.mentioned, Sample.broken]
  exact ⟨_, _, rfl, hall.1, hall.2.2 _ _ _ _ rfl⟩

/-! ## One tag, two nodes -/

/-- With one entry for each tag, two nodes of a tag are not both listed, and the one that
is not was made up and made first. -/
theorem Translator.Accounted.overtaken {t : Translator} (a : t.Accounted) (s : t.Sound)
    (hone : ∀ key i key' j, t.lookup key = some i → t.lookup key' = some j → key.2 = key'.2 →
      key = key')
    {h k : Handle} {n m : Node} {tag : String} (hlt : h.index < k.index)
    (hn : t.graph.get? h = some n) (hm : t.graph.get? k = some m) (hnt : n.tag? = some tag)
    (hmt : m.tag? = some tag) :
    (tag ∈ t.invented ∧ ¬t.Listed h) ∧ ∃ key, key.2 = tag ∧ t.lookup key = some k := by
  have hkey {l : Node} (ht : l.tag? = some tag) : ∃ key, l.key? = some key ∧ key.2 = tag := by
    rwa [Node.tag?_eq, Option.map_eq_some_iff] at ht
  obtain ⟨key, hnk, hname⟩ := hkey hnt
  obtain ⟨key', hmk, hname'⟩ := hkey hmt
  by_cases hh : t.Listed h
  · have hlook := s.listed hn hnk hh
    by_cases hk : t.Listed k
    · have hlook' := s.listed hm hmk hk
      rw [hone key h key' k hlook hlook' (hname.trans hname'.symm), hlook'] at hlook
      cases hlook
      exact absurd hlt (Nat.lt_irrefl _)
    · rcases a.alone k h m n tag hm hn hmt hnt hk with rfl | ⟨_, hlt'⟩
      · exact absurd hlt (Nat.lt_irrefl _)
      · exact absurd hlt (Nat.lt_asymm hlt')
  · have hmade := (a.tags h n key hn hnk).resolve_left fun hlook => hh ⟨key, hlook⟩
    rcases a.alone h k n m tag hn hm hnt hmt hh with rfl | ⟨hk, _⟩
    · exact absurd hlt (Nat.lt_irrefl _)
    · exact ⟨⟨hname ▸ hmade, hh⟩, key', hname', s.listed hm hmk hk⟩

/-- Where two nodes have the same tag, that of the first was made up, and the second is
the one of a tag that is written and was only read later. -/
theorem SourceUnit.overtaken_of_same_tag {u : SourceUnit} {g : Graph} (hg : u.translate = .ok g)
    (hu : u.OneKeyword) {h k : Handle} {n m : Node} {tag : String} (hlt : h.index < k.index)
    (hn : g.get? h = some n) (hm : g.get? k = some m) (hnt : n.tag? = some tag)
    (hmt : m.tag? = some tag) :
    (tag ∈ (Translator.start.feed u).2.invented ∧ ¬(Translator.start.feed u).2.Listed h) ∧
      ∃ key ∈ u.tags, key.2 = tag ∧ (Translator.start.feed u).2.lookup key = some k := by
  unfold SourceUnit.translate at hg
  have s := (Translator.Sound.start.feed u).1
  have a := Translator.Accounted.start.feed .start u
  have hfrom := (Walk.items_account .start .start u.items).2
  cases hrun : Translator.start.feed u with
  | mk r t =>
    rw [hrun] at hg s a
    cases r with
    | error e => cases hg
    | ok _ =>
      cases hg
      have htags : Translator.start.TagsFrom t u.tags := hfrom _ t hrun
      -- an entry of a table is for a tag that is written
      have hwritten {key : Option ContainerKind × String} {j : Handle}
          (hj : t.lookup key = some j) :
          key ∈ u.tags := by
        refine (htags key j hj).resolve_left fun hno => ?_
        obtain ⟨_ | _ | _, _⟩ := key <;> cases hno
      obtain ⟨hmade, key, hname, hlook⟩ := a.overtaken s
        (fun _ _ _ _ hi hj he => hu _ (hwritten hi) _ (hwritten hj) he) hlt hn hm hnt hmt
      exact ⟨hmade, key, hwritten hlook, hname, hlook⟩

namespace Sample

/-- `struct A { struct { int a; } *p; }` and `struct __A_p { int b; }`. -/
def overtaken : SourceUnit := ⟨"late.h", [
  .container .struct (.body (some "A")
    [.named "p" (.pointer (.container .struct (.body none [.named "a" (.word "int")])))]),
  .container .struct (.body (some "__A_p") [.named "b" (.word "int")])]⟩

end Sample

/-- The anonymous struct becomes `__A_p` before the other one is read. -/
theorem overtaken_of_same_tag_late : Sample.overtaken.OneKeyword ∧
    ∃ g n m, Sample.overtaken.translate = .ok g ∧ g.get? ⟨1⟩ = some n ∧ g.get? ⟨4⟩ = some m ∧
      n.tag? = some "__A_p" ∧ m.tag? = some "__A_p" ∧
      ("__A_p" ∈ (Translator.start.feed Sample.overtaken).2.invented ∧
        ¬(Translator.start.feed Sample.overtaken).2.Listed ⟨1⟩) ∧
      ∃ key ∈ Sample.overtaken.tags, key.2 = "__A_p" ∧
        (Translator.start.feed Sample.overtaken).2.lookup key = some ⟨4⟩ := by
  have h : Sample.overtaken.OneKeyword ∧ ∃ g ∈ Sample.overtaken.translate.toOption,
      ∃ n ∈ g.get? ⟨1⟩, ∃ m ∈ g.get? ⟨4⟩, n.tag? = some "__A_p" ∧ m.tag? = some "__A_p" := by
    decide +kernel
  obtain ⟨hk, g, hg, n, hn, m, hm, hnt, hmt⟩ := h
  have hg := Graph.eq_ok_of_mem_toOption hg
  exact ⟨hk, g, n, m, hg, hn, hm, hnt, hmt,
    SourceUnit.overtaken_of_same_tag hg hk (by decide) hn hm hnt hmt⟩

theorem overtaken_clashes : Sample.overtaken.OneKeyword ∧
    ∃ g, Sample.overtaken.translate = .ok g ∧ ¬g.Distinct Node.tag? := by
  have h : Sample.overtaken.OneKeyword ∧
      ∃ g ∈ Sample.overtaken.translate.toOption, ¬g.Distinct Node.tag? := by decide +kernel
  obtain ⟨hk, g, hg, hclash⟩ := h
  exact ⟨hk, g, Graph.eq_ok_of_mem_toOption hg, hclash⟩

end CythonDecls
