import CythonDecls.Proofs.Pxd.Rendered

/-!
# Blocks behind blocks

Rendering only ever adds blocks at the end. What is claimed of an added block
may look at the blocks in front of it, and at the names that it was printed
with, which are those known once its item is rendered.
-/

namespace CythonDecls.Pxd

/-- Each of a list stands in the relation `P` to what is in front of it, `before` included. -/
def Follows {α : Type} (P : List α → α → Prop) (before : List α) : List α → Prop
  | [] => True
  | a :: as => P before a ∧ Follows P (before ++ [a]) as

section
variable {α : Type} {P Q : List α → α → Prop} {before as bs : List α}

theorem follows_append :
    Follows P before (as ++ bs) ↔ Follows P before as ∧ Follows P (before ++ as) bs := by
  induction as generalizing before with
  | nil => simp [Follows]
  | cons a as ih => simp [Follows, ih, and_assoc]

theorem follows_of_forall (h : ∀ a ∈ as, ∀ more, P (before ++ more) a) : Follows P before as := by
  induction as generalizing before with
  | nil => trivial
  | cons a as ih =>
    have hfirst := h a List.mem_cons_self []
    rw [List.append_nil] at hfirst
    refine ⟨hfirst, ih fun b hb more => ?_⟩
    rw [List.append_assoc]
    exact h b (List.mem_cons_of_mem _ hb) _

theorem follows_map {β : Type} {f : β → α} {R : List β → β → Prop} {start bs : List β}
    (h : Follows P (start.map f) (bs.map f))
    (hR : ∀ more b, b ∈ bs → P (more.map f) (f b) → R more b) : Follows R start bs := by
  induction bs generalizing start with
  | nil => trivial
  | cons b bs ih =>
    refine ⟨hR start b List.mem_cons_self h.1, ih ?_ fun more c hc => ?_⟩
    · rw [List.map_append]
      exact h.2
    · exact hR more c (List.mem_cons_of_mem _ hc)

theorem Follows.split (h : Follows P [] as) {a : α} {behind : List α}
    (hsplit : as = before ++ a :: behind) : P before a := by
  rw [hsplit, follows_append] at h
  exact h.2.1

end

/-- From `r` to `r'` blocks come that stand in the relation `P` to those in front of them. -/
def Extends (P : List Block → Block → Prop) (r r' : Rendering) : Prop :=
  ∃ bs, r'.blocks = r.blocks ++ bs ∧ Follows P r.blocks bs

section
variable {P : List Block → Block → Prop} {g : Graph} {r r₁ r' : Rendering}

theorem Extends.refl (P : List Block → Block → Prop) (r : Rendering) : Extends P r r :=
  ⟨[], (List.append_nil _).symm, trivial⟩

theorem Extends.trans (h : Extends P r r₁) (h' : Extends P r₁ r') : Extends P r r' := by
  obtain ⟨bs, hbs, hf⟩ := h
  obtain ⟨cs, hcs, hf'⟩ := h'
  refine ⟨bs ++ cs, by rw [hcs, hbs, List.append_assoc], follows_append.mpr ⟨hf, ?_⟩⟩
  rw [← hbs]
  exact hf'

theorem Extends.push (h : Extends P r r') {b : Block} (hb : P r'.blocks b) :
    Extends P r (r'.push b) :=
  h.trans ⟨[b], rfl, hb, trivial⟩

theorem Extends.define (r : Rendering) (h : Handle) (name : String) :
    Extends P r (r.define h name) :=
  ⟨[], (List.append_nil _).symm, trivial⟩

theorem Extends.synonym (h : Extends P r r') {k target : Handle} {declared name : String}
    (hb : declared ≠ name → P r'.blocks (.synonym k target declared name)) :
    Extends P r (r'.synonym k target declared name) := by
  unfold Rendering.synonym
  split
  · exact h
  · rename_i hne
    exact h.push (hb hne)

theorem Extends.forwards (h : Extends P r r₁) {owner : Handle} {hs : List Handle}
    (hf : Forwards g owner hs r₁ r') (hP : ∀ before b, b.IsForward g → P before b) :
    Extends P r r' := by
  obtain ⟨bs, hbs, hall⟩ := hf.blocks
  exact h.trans ⟨bs, hbs, follows_of_forall fun b hb _ => hP _ b (hall b hb)⟩

theorem Extends.subset (h : Extends P r r') : r.blocks ⊆ r'.blocks := by
  obtain ⟨bs, hbs, _⟩ := h
  rw [hbs]
  exact List.subset_append_left _ _

end

/-! ## The whole module list -/

/-- The blocks that the items `hs` add to `r`, each with the names that it was printed with. -/
def Rendering.named (g : Graph) (filter : Filter) (r : Rendering) :
    List Handle → Except Fault (List (Table Handle String × Block))
  | [] => return []
  | h :: hs => do
    let r' ← filteredItem g filter r h
    return (r'.blocks.drop r.blocks.length).map (r'.names, ·) ++ (← named g filter r' hs)

/-- Items are rendered one after the other, to the blocks `ps`. -/
inductive RendersAll (g : Graph) :
    Rendering → List Handle → List (Table Handle String × Block) → Rendering → Prop where
  | nil (r : Rendering) : RendersAll g r [] [] r
  | cons {r r₁ r' : Rendering} {h : Handle} {hs : List Handle} {bs : List Block}
      {ps : List (Table Handle String × Block)} (first : Renders g r h r₁)
      (added : r₁.blocks = r.blocks ++ bs) (rest : RendersAll g r₁ hs ps r') :
      RendersAll g r (h :: hs) (bs.map (r₁.names, ·) ++ ps) r'

section
variable {g : Graph} {r r' : Rendering} {hs : List Handle} {ps : List (Table Handle String × Block)}

theorem RendersAll.blocks (hr : RendersAll g r hs ps r') :
    r'.blocks = r.blocks ++ ps.map (·.2) := by
  induction hr with
  | nil r => simp
  | cons _ added _ ih => simp [ih, added, Function.comp_def]

theorem RendersAll.keeps_from {items : List Handle} {I : List Handle → Rendering → Prop}
    (step : ∀ done h rest, items = done ++ h :: rest → ∀ r r₁, I done r → Renders g r h r₁ →
      I (done ++ [h]) r₁)
    (hr : RendersAll g r hs ps r') {done : List Handle} (hitems : items = done ++ hs)
    (hI : I done r) : I items r' := by
  induction hr generalizing done with
  | nil r =>
    rw [List.append_nil] at hitems
    exact hitems ▸ hI
  | @cons r r₁ r' h hs bs ps first _ _ ih =>
    have hI₁ := step done h hs hitems r r₁ hI first
    rw [List.append_cons] at hitems
    exact ih hitems hI₁

theorem RendersAll.keeps {items : List Handle} {I : List Handle → Rendering → Prop}
    (hr : RendersAll g .start items ps r') (start : I [] .start)
    (step : ∀ done h rest, items = done ++ h :: rest → ∀ r r₁, I done r → Renders g r h r₁ →
      I (done ++ [h]) r₁) : I items r' :=
  keeps_from step hr rfl start

theorem RendersAll.follows {items : List Handle} {I : List Handle → Rendering → Prop}
    {P : Declarator → List Block → Block → Prop}
    (step : ∀ done h rest, items = done ++ h :: rest → ∀ r r₁, I done r → Renders g r h r₁ →
      I (done ++ [h]) r₁ ∧ Extends (P (r₁.declarator g)) r r₁)
    (hr : RendersAll g r hs ps r') {done : List Handle} (hitems : items = done ++ hs)
    (hI : I done r) {before : List (Table Handle String × Block)}
    (hbefore : r.blocks = before.map (·.2)) :
    Follows (fun before p => P ⟨g, p.1⟩ (before.map (·.2)) p.2) before ps := by
  induction hr generalizing done before with
  | nil r => trivial
  | @cons r r₁ r' h hs bs ps first added rest ih =>
    obtain ⟨hI₁, bs', hbs', hfollows⟩ := step done h hs hitems r r₁ hI first
    obtain rfl : bs' = bs := List.append_cancel_left (hbs'.symm.trans added)
    have hafter : r₁.blocks = (before ++ bs'.map (r₁.names, ·)).map (·.2) := by
      simp [added, hbefore, Function.comp_def]
    rw [List.append_cons] at hitems
    refine follows_append.mpr ⟨?_, ih hitems hI₁ hafter⟩
    rw [hbefore] at hfollows
    have hmap : bs' = (bs'.map (r₁.names, ·)).map (·.2) := by simp [Function.comp_def]
    rw [hmap] at hfollows
    refine follows_map hfollows fun more p hp hP => ?_
    obtain ⟨b, _, rfl⟩ := List.mem_map.mp hp
    exact hP

/-- What every item says of its blocks, where `I` holds in front of it, each block has. -/
theorem RendersAll.blocks_follow {items : List Handle} {I : List Handle → Rendering → Prop}
    {P : Declarator → List Block → Block → Prop} (hr : RendersAll g .start items ps r')
    (start : I [] .start)
    (step : ∀ done h rest, items = done ++ h :: rest → ∀ r r₁, I done r → Renders g r h r₁ →
      I (done ++ [h]) r₁ ∧ Extends (P (r₁.declarator g)) r r₁) :
    ∀ before p behind, ps = before ++ p :: behind → P ⟨g, p.1⟩ (before.map (·.2)) p.2 := by
  have hnil : Rendering.start.blocks = ([] : List (Table Handle String × Block)).map (·.2) := rfl
  exact fun _ _ _ hsplit => (hr.follows step rfl start hnil).split hsplit

end

end CythonDecls.Pxd
