import CythonDecls.Proofs.Graph.Items
import CythonDecls.Proofs.Translation.Accounted
import CythonDecls.Proofs.Translation.Entries

/-!
# How items are walked

An item that changes anything reads its type without touching the module list
and then places one node, behind the definitions it has met. A typedef is new
before its target is read, and after that only the target is set.
-/

namespace CythonDecls

namespace Walk

open Translator

section
variable {t : Translator} (s : t.Sound)
include s

/-- An item that changes anything ends by placing a node. Only a typedef whose name is new
changes the table of typedefs. -/
theorem item_places (i : Item) :
    Ensures t (item i) fun _ t' => t' = t ∨ ∃ t₁ x,
      ((∀ name, i.typedefName? = some name → (t.typedefs.find? name).isSome) →
        t₁.typedefs = t.typedefs) ∧
      t₁.graph.module = t.graph.module ∧
      t' = placedState t₁ x (if i.defines then t₁.graph.module.remove x else t₁.graph.module) := by
  cases i with
  | typedef d =>
    have hl := typedef_leads s d
    cases hf : t.typedefs.find? d.name with
    | some h =>
      have hknown : Ensures t (typedef d) fun _ t' => t' = t :=
        .of_run (v := Pure.pure h) (typedef_known d hf) (.pure rfl)
      refine .bind hl hknown ?_
      intro x t₁ _ _ _ ht _ _ hrun
      cases hrun
      exact .inr ⟨t₁, x, fun _ => by rw [ht], by rw [ht], rfl⟩
    | none =>
      refine .bind hl (typedef_target s d hf) ?_
      intro x t₁ _ _ _ ht
      have hm : t₁.graph.module = t.graph.module := by
        obtain ⟨_, target, t₂, e, hr, _, _, _, rfl⟩ := ht
        exact (Ensures.of_leads (resolve_leads (s.withTypedef d) ..) target t₂ hr).1.module
      intro _ _ hrun
      cases hrun
      have hnew : ¬(t.typedefs.find? d.name).isSome := by simp [hf]
      exact .inr ⟨t₁, x, fun hall => absurd (hall d.name rfl) hnew, hm, rfl⟩
  | container kind spec =>
    have hl := container_leads s kind none spec
    refine .bind hl (.of_leads hl) ?_
    intro x t₁ _ _ hw _ _ _ hrun
    rw [placeTagged_run] at hrun
    cases hrun
    exact .inr ⟨t₁, x, fun _ => hw.1.typedefs, hw.1.module, rfl⟩
  | enumeration spec =>
    have hl := enumeration_leads s spec none
    refine .bind hl (.of_leads hl) ?_
    intro x t₁ _ _ hw _ _ _ hrun
    rw [placeTagged_run] at hrun
    cases hrun
    exact .inr ⟨t₁, x, fun _ => hw.1.typedefs, hw.1.module, rfl⟩
  | declaration d =>
    obtain ⟨_ | name, type, location⟩ := d
    · exact .pure (.inl rfl)
    · by_cases hty : ∃ sig, type = .function sig
      · obtain ⟨sig, rfl⟩ := hty
        unfold item declare
        apply Ensures.get
        split
        · exact .pure (.inl rfl)
        · have hl := function_leads s name location sig
          refine .bind hl (.of_leads hl) ?_
          intro x t₁ _ _ hw _ _ _ hrun
          cases hrun
          exact .inr ⟨{ t₁ with functions := t₁.functions.insert name x }, x,
            fun _ => hw.1.typedefs, hw.1.module, rfl⟩
      · have hitem : item (.declaration ⟨some name, type, location⟩) = _ :=
          declare_variable name location fun sig he => hty ⟨sig, he⟩
        rw [hitem]
        have hl := resolve_leads s ⟨some name, none, location, .nested⟩ type
        refine .bind hl (.of_leads hl) ?_
        intro h t₁ _ _ hw _ _ _ hrun
        cases hrun
        exact .inr ⟨{ t₁ with graph := t₁.graph.add (.object ⟨name, h, location⟩) },
          t₁.graph.next, fun _ => hw.1.typedefs, hw.1.module, rfl⟩
  | ignored what => exact .pure (.inl rfl)

theorem item_nodup (i : Item) (hn : t.graph.module.items.Nodup) :
    Ensures t (item i) fun _ t' => t'.graph.module.items.Nodup := by
  refine (item_places s i).weaken ?_
  intro _ t' h
  rcases h with rfl | ⟨t₁, x, _, hm, rfl⟩
  · exact hn
  · apply Module.nodup_push
    apply Module.nodup_pushAll
    rw [hm]
    split
    · exact Module.nodup_remove hn
    · exact hn

theorem items_nodup (is : List Item) (hn : t.graph.module.items.Nodup) :
    Ensures t (is.forM item) fun _ t' => t'.graph.module.items.Nodup := by
  induction is generalizing t with
  | nil => exact .pure hn
  | cons i is ih =>
    refine .bind (item_leads s i) (item_nodup s i hn) ?_
    intro _ t₁ s₁ _ _ hn₁
    exact ih s₁ hn₁

end

end Walk

theorem SourceUnit.nodup_items {u : SourceUnit} {g : Graph} (hg : u.translate = .ok g) :
    g.module.items.Nodup := by
  obtain ⟨t, ht, rfl⟩ := translate_ok hg
  exact Walk.items_nodup .start u.items List.nodup_nil _ t ht

end CythonDecls
