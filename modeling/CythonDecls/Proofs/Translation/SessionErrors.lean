import CythonDecls.Proofs.Translation.Errors

/-!
# Errors over a session

What a translator knows decides which items it passes over, so the first
obstacle of a unit depends on the units before it. A failed unit counts up to
its obstacle: the name of a typedef is known even when its target failed, that
of a function is not.
-/

namespace CythonDecls

open Translator

/-- The names in the tables are the known ones. -/
structure Translator.Knows (t : Translator) (known : Known) : Prop where
  typedefs : t.Names known.typedefs
  functions : ∀ name, t.functions.contains name = known.functions.contains name

theorem contains_insert {table : Table String Handle} {names : List String}
    (hn : ∀ name, table.contains name = names.contains name) (added : String) (h : Handle)
    (name : String) : (table.insert added h).contains name = (added :: names).contains name := by
  have hrest : (table.find? name).isSome = names.contains name := hn name
  unfold Table.contains
  rw [Table.find?_insert, List.contains_cons, ← hrest]
  by_cases he : name = added
  · simp [he]
  · have hb : (name == added) = false := by simpa using he
    simp [hb, he]

theorem contains_cons_of_contains {names : List String} {added : String}
    (ha : names.contains added = true) (name : String) :
    (added :: names).contains name = names.contains name := by
  rw [List.contains_cons]
  by_cases he : name = added
  · subst he
    rw [ha, Bool.or_true]
  · have hb : (name == added) = false := by simpa using he
    rw [hb, Bool.false_or]

namespace Walk

/-- The walk fails at the first obstacle, and knows this behind it. -/
structure Leaves {α : Type} (t : Translator) (w : Walk α) (os : List Obstacle) (known : Known) :
    Prop where
  knows : (w.run t).2.Knows known
  outcome : Outcome os (w.run t).2 (w.run t).1

section
variable {α β : Type} {t : Translator} {w : Walk α} {f : α → Walk β} {os ps : List Obstacle}
  {known later : Known}

theorem Leaves.of_meets (hw : Meets t w os) (hk : t.Knows known) : Leaves t w os known :=
  ⟨⟨hk.typedefs.steady hw.steady, fun name => by rw [hw.steady.functions]; exact hk.functions name⟩,
    hw.outcome⟩

theorem Leaves.of_run {v : Walk α} {r : Translator} (h : w.run t = v.run r)
    (hv : Leaves r v os known) : Leaves t w os known := by
  obtain ⟨hk, hout⟩ := hv
  rw [← h] at hk hout
  exact ⟨hk, hout⟩

theorem Leaves.ok {a : α} {t' : Translator} (hrun : w.run t = (.ok a, t')) (hk : t'.Knows known) :
    Leaves t w [] known := by
  constructor
  · rw [hrun]
    exact hk
  · exact ⟨a, by rw [hrun]⟩

theorem Leaves.bind (hw : Leaves t w os known)
    (hok : os = [] → ∀ a t₁, w.run t = (.ok a, t₁) → t₁.Knows known → Leaves t₁ (f a) ps later)
    (herr : os ≠ [] → later = known) : Leaves t (w >>= f) (os ++ ps) later := by
  have hk := hw.knows
  obtain ⟨rfl, a, t₁, hrun, hbind⟩ | ⟨o, os', rfl, err, t₁, hrun, hbind, hrep⟩ :=
    outcome_cases hw.outcome f
  · rw [hrun] at hk
    exact .of_run hbind (hok rfl a t₁ hrun hk)
  · rw [hrun] at hk
    constructor
    · rwa [hbind, herr (List.cons_ne_nil o os')]
    · exact ⟨err, by rw [hbind], by rwa [hbind]⟩

theorem Leaves.finish (hw : Leaves t w os known)
    (hok : os = [] → ∀ a t₁, w.run t = (.ok a, t₁) → t₁.Knows known →
      ∃ b t₂, (f a).run t₁ = (.ok b, t₂) ∧ t₂.Knows later)
    (herr : os ≠ [] → later = known) : Leaves t (w >>= f) os later := by
  have h : Leaves t (w >>= f) (os ++ []) later := by
    refine hw.bind ?_ herr
    intro hos a t₁ hrun hk
    obtain ⟨b, t₂, hrun₂, hk₂⟩ := hok hos a t₁ hrun hk
    exact .ok hrun₂ hk₂
  rwa [List.append_nil] at h

theorem Leaves.placed {f : α → Walk Unit} (hw : Leaves t w os known)
    (hf : ∀ a t₁, ∃ t₂, (f a).run t₁ = (.ok ⟨⟩, t₂) ∧ t₂.typedefs = t₁.typedefs ∧
      t₂.functions = t₁.functions) :
    Leaves t (w >>= f) os known := by
  refine hw.finish ?_ fun _ => rfl
  intro _ a t₁ _ hk
  obtain ⟨t₂, hrun, hty, hfn⟩ := hf a t₁
  exact ⟨_, t₂, hrun, fun name => hty ▸ hk.typedefs name, fun name => hfn ▸ hk.functions name⟩

end

/-! ## Items -/

section
variable {t : Translator} (s : t.Sound) {known : Known} (hk : t.Knows known)
include s hk

/-- A typedef gets its target only once, right after its name was new. -/
theorem typedef_leaves (d : TypedefDecl) :
    Leaves t (item (.typedef d)) (Item.obstacles known (.typedef d))
      (known.after (.typedef d)) := by
  refine Leaves.placed (w := typedef d) ?_ fun x t₁ => ⟨_, place_run t₁ x, rfl, rfl⟩
  have hd : t.typedefs.contains d.name = known.typedefs.contains d.name := hk.typedefs d.name
  unfold Item.obstacles Known.after
  cases hf : t.typedefs.find? d.name with
  | some h =>
    have hknown : known.typedefs.contains d.name = true := by rw [← hd, Table.contains, hf]; rfl
    simp only [hknown, if_true]
    refine .of_run (typedef_known d hf) (.ok rfl ⟨fun name => ?_, hk.functions⟩)
    rw [contains_cons_of_contains hknown]
    exact hk.typedefs name
  | none =>
    have hnew : known.typedefs.contains d.name = false := by rw [← hd, Table.contains, hf]; rfl
    simp only [hnew, if_false, Bool.false_eq_true]
    have hnames : (t.withTypedef d).Names (d.name :: known.typedefs) :=
      contains_insert hk.typedefs d.name _
    have s₁ := s.withTypedef d
    have hmeets := walks_meet.1 ⟨some d.name, none, d.location, .typedefTarget⟩ d.type
      (t.withTypedef d) _ _ s₁ hnames (fits_unowned ..)
    have hknows : (t.withTypedef d).Knows { known with typedefs := d.name :: known.typedefs } :=
      ⟨hnames, hk.functions⟩
    refine .of_run (typedef_new d hf) ?_
    refine (Leaves.of_meets hmeets hknows).finish ?_ fun _ => rfl
    intro _ target t₁ hrun hk₁
    -- reading the target has not touched the new typedef, so it has no target yet
    have hs := hmeets.steady
    rw [hrun] at hs
    have hnode := hs.nodes _ _ (Graph.get?_add_next t.graph (.typedef ⟨d.name, none, d.location⟩))
    have hassign : t₁.graph.assignTarget t.graph.next target =
        .ok (t₁.graph.set t.graph.next (.typedef ⟨d.name, some target, d.location⟩)) := by
      simp only [Graph.assignTarget, hnode]
    have hrun₂ := run_bind (tryGraph (·.assignTarget t.graph.next target))
      (fun _ => (return t.graph.next : Walk Handle)) t₁
    rw [tryGraph_run hassign] at hrun₂
    exact ⟨t.graph.next, _, hrun₂, hk₁.typedefs, hk₁.functions⟩

theorem function_leaves (name : String) (sig : Signature) (location : Option Location) :
    Leaves t (declare name (.function sig) location)
      (Item.obstacles known (.declaration ⟨some name, .function sig, location⟩))
      (known.after (.declaration ⟨some name, .function sig, location⟩)) := by
  have hd : t.functions.contains name = known.functions.contains name := hk.functions name
  unfold declare Known.after Item.obstacles
  refine .of_run (run_get _ t) ?_
  by_cases hc : known.functions.contains name = true
  · simp only [hd, hc, if_true, List.isEmpty_nil]
    refine .ok rfl ⟨hk.typedefs, fun other => ?_⟩
    rw [contains_cons_of_contains hc]
    exact hk.functions other
  · simp only [hd, hc]
    have hmeets := walks_meet.2.1 name location sig t known.typedefs s hk.typedefs
    refine (Leaves.of_meets hmeets hk).finish ?_ ?_
    · intro hos h t₁ _ hk₁
      refine ⟨_, _, rfl, ?_⟩
      simp only [hos]
      exact ⟨hk₁.typedefs, contains_insert hk₁.functions name h⟩
    · intro hos
      simp only [List.isEmpty_eq_false_iff.mpr hos, if_false, Bool.false_eq_true]

theorem item_leaves (i : Item) : Leaves t (item i) (i.obstacles known) (known.after i) := by
  cases i with
  | typedef d => exact typedef_leaves s hk d
  | container kind spec =>
    have hmeets := walks_meet.2.2.2.1 kind none spec t known.typedefs none s hk.typedefs .none
    exact (Leaves.of_meets hmeets hk).placed fun h t₁ =>
      ⟨_, placeTagged_run t₁ h _, rfl, rfl⟩
  | enumeration spec =>
    have hmeets := enumeration_meets s spec none
    exact (Leaves.of_meets hmeets hk).placed fun h t₁ =>
      ⟨_, placeTagged_run t₁ h _, rfl, rfl⟩
  | declaration d =>
    obtain ⟨_ | name, type, location⟩ := d
    · exact .ok rfl hk
    · by_cases hty : ∃ sig, type = .function sig
      · obtain ⟨sig, rfl⟩ := hty
        exact function_leaves s hk name sig location
      · have hvar : item (.declaration ⟨some name, type, location⟩) = _ :=
          declare_variable name location fun sig he => hty ⟨sig, he⟩
        have hos : Item.obstacles known (.declaration ⟨some name, type, location⟩) =
            type.obstacles known.typedefs ⟨some name, none, location, .nested⟩ := by
          cases type with
          | function sig => exact absurd ⟨sig, rfl⟩ hty
          | _ => rfl
        have hafter : known.after (.declaration ⟨some name, type, location⟩) = known := by
          cases type with
          | function sig => exact absurd ⟨sig, rfl⟩ hty
          | _ => rfl
        rw [hvar, hos, hafter]
        have hmeets := walks_meet.1 ⟨some name, none, location, .nested⟩ type t known.typedefs _ s
          hk.typedefs (fits_unowned ..)
        exact (Leaves.of_meets hmeets hk).placed fun _ _ => ⟨_, rfl, rfl, rfl⟩
  | ignored what => exact .ok rfl hk

end

theorem items_leave (is : List Item) : ∀ {t : Translator}, t.Sound → ∀ {known : Known},
    t.Knows known → Leaves t (is.forM item) (known.read is).1.toList (known.read is).2 := by
  induction is with
  | nil => exact fun _ _ hk => .ok rfl hk
  | cons i is ih =>
    intro t s known hk
    have hi := item_leaves s hk i
    unfold Known.read
    cases hos : i.obstacles known with
    | nil =>
      rw [hos] at hi
      have hrest : ∀ a t₁, (item i).run t = (.ok a, t₁) → t₁.Knows (known.after i) →
          Leaves t₁ (is.forM item) ((known.after i).read is).1.toList
            ((known.after i).read is).2 := by
        intro a t₁ hrun hk₁
        have s₁ := ((item_leads s i).ok hrun).1
        exact ih s₁ hk₁
      exact hi.bind (fun _ => hrest) fun hne => absurd rfl hne
    | cons o os =>
      rw [hos] at hi
      have h : Leaves t (item i >>= fun _ => is.forM item) (o :: os ++ []) (known.after i) :=
        hi.bind (fun hnil => nomatch hnil) fun _ => rfl
      exact ⟨h.knows, h.outcome⟩

end Walk

/-! ## Units -/

/-- The errors that a unit can end with. -/
def TranslateError.IsClassified : TranslateError → Prop
  | .constant .. => True
  | .unknownType .. => True
  | .malformed _ _ (.unknownType ..) => True
  | _ => False

theorem Obstacle.Reported.classified {o : Obstacle} {t : Translator} {e : TranslateError}
    (hr : o.Reported t e) : e.IsClassified := by
  obtain ⟨⟨words, location⟩ | ⟨name, source⟩, _ | ⟨m, rest⟩⟩ := o
  · cases hr
    trivial
  · obtain ⟨h, c, _, _, he⟩ := hr
    subst he
    trivial
  · cases hr
    trivial
  · cases hr
    trivial

namespace Translator

theorem Knows.start : start.Knows .none := ⟨fun _ => rfl, fun _ => rfl⟩

theorem Knows.feed {t : Translator} {known : Known} (s : t.Sound) (hk : t.Knows known)
    (u : SourceUnit) : (t.feed u).2.Knows (known.read u.items).2 :=
  (Walk.items_leave u.items s hk).knows

theorem Knows.feedAll {t : Translator} {known : Known} (s : t.Sound) (hk : t.Knows known)
    (us : List SourceUnit) : (t.feedAll us).Knows (known.afterUnits us) := by
  induction us generalizing t known with
  | nil => exact hk
  | cons u us ih => exact ih (s.feed u).1 (hk.feed s u)

/-- A unit of a session, also one behind units that failed, fails at its first obstacle and at
nothing else, and the error tells which. It is never one about the graph, and a member is never
reported inside of another. -/
theorem feed_fails_first (us : List SourceUnit) (u : SourceUnit) :
    match ((Known.none.afterUnits us).read u.items).1 with
    | none => ((start.feedAll us).feed u).1 = .ok ()
    | some o => ∃ e, ((start.feedAll us).feed u).1 = .error e ∧
      o.Reported ((start.feedAll us).feed u).2 e ∧ e.IsClassified := by
  have s := (Sound.start.feedAll us).1
  have hk := Knows.start.feedAll .start us
  have hout := (Walk.items_leave u.items s hk).outcome
  cases hfirst : ((Known.none.afterUnits us).read u.items).1 with
  | none =>
    rw [hfirst] at hout
    obtain ⟨_, hok⟩ := hout
    exact hok
  | some o =>
    rw [hfirst] at hout
    obtain ⟨e, he, hrep⟩ := hout
    exact ⟨e, he, hrep, hrep.classified⟩

/-- `struct A { struct { size_t n; } *p; };` is read up to `n`, a member of a struct that has no
tag of its own. -/
example : (Known.none.read [.container .struct ⟨some "A", some [.declaration ⟨some "p",
      .pointer (.container .struct
        ⟨none, some [.declaration ⟨some "n", .identifier ["size_t"], none⟩],
        none⟩), none⟩], none⟩]).1 =
    some ⟨.words ["size_t"] none, [⟨.struct, some (.madeIn (.written "A") "p"), "n"⟩,
      ⟨.struct, some (.written "A"), "p"⟩]⟩ := by
  rfl

end Translator

end CythonDecls
