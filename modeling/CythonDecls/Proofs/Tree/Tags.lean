import CythonDecls.Tree.Basic

/-!
# The tags that a tree mentions

Every tag that is written, wherever it stands and whether it comes with a body
or not, beside the keyword in front of it. Structs and unions have their
keyword, and `none` is for `enum`.
-/

namespace CythonDecls

def EnumSpec.tags (spec : EnumSpec) : List (Option ContainerKind × String) :=
  spec.tag.toList.map (none, ·)

mutual
def TypeExpr.tags : TypeExpr → List (Option ContainerKind × String)
  | .pointer target => target.tags
  | .array target _ => target.tags
  | .identifier _ => []
  | .container kind spec => spec.tags kind
  | .enumeration spec => spec.tags
  | .function sig => sig.tags

def ContainerSpec.tags (kind : ContainerKind) :
    ContainerSpec → List (Option ContainerKind × String)
  | ⟨tag, some ms, _⟩ => tag.toList.map (some kind, ·) ++ tagsOfMembers ms
  | ⟨tag, none, _⟩ => tag.toList.map (some kind, ·)

def tagsOfMembers : List Member → List (Option ContainerKind × String)
  | [] => []
  | .ignored _ :: ms => tagsOfMembers ms
  | .declaration ⟨_, type, _⟩ :: ms => type.tags ++ tagsOfMembers ms

def Signature.tags : Signature → List (Option ContainerKind × String)
  | ⟨returns, params, _⟩ => returns.tags ++ tagsOfParams params

def tagsOfParams : List Declaration → List (Option ContainerKind × String)
  | [] => []
  | ⟨_, type, _⟩ :: ds => type.tags ++ tagsOfParams ds
end

theorem tagsOfMembers_subset (m : Member) (ms : List Member) :
    tagsOfMembers ms ⊆ tagsOfMembers (m :: ms) := by
  cases m with
  | ignored what => exact List.Subset.refl _
  | declaration d =>
    obtain ⟨name, type, location⟩ := d
    exact List.subset_append_right _ _

def Item.tags : Item → List (Option ContainerKind × String)
  | .typedef d => d.type.tags
  | .container kind spec => spec.tags kind
  | .enumeration spec => spec.tags
  | .declaration d => d.type.tags
  | .ignored _ => []

def SourceUnit.tags (u : SourceUnit) : List (Option ContainerKind × String) :=
  u.items.flatMap Item.tags

/-- Each tag is written with one keyword only. -/
def SourceUnit.OneKeyword (u : SourceUnit) : Prop :=
  ∀ k ∈ u.tags, ∀ l ∈ u.tags, k.2 = l.2 → k = l

instance (u : SourceUnit) : Decidable u.OneKeyword :=
  inferInstanceAs (Decidable (∀ k ∈ u.tags, ∀ l ∈ u.tags, k.2 = l.2 → k = l))

/-! ## References without a name -/

mutual
/-- Every struct, union or enum that is mentioned has a tag or a body. -/
def TypeExpr.identified : TypeExpr → Bool
  | .pointer target => target.identified
  | .array target _ => target.identified
  | .identifier _ => true
  | .container _ spec => spec.identified
  | .enumeration spec => spec.tag.isSome || spec.enumerators.isSome
  | .function sig => sig.identified

def ContainerSpec.identified : ContainerSpec → Bool
  | ⟨_, some ms, _⟩ => identifiedMembers ms
  | ⟨tag, none, _⟩ => tag.isSome

def identifiedMembers : List Member → Bool
  | [] => true
  | .ignored _ :: ms => identifiedMembers ms
  | .declaration ⟨_, type, _⟩ :: ms => type.identified && identifiedMembers ms

def Signature.identified : Signature → Bool
  | ⟨returns, params, _⟩ => returns.identified && identifiedParams params

def identifiedParams : List Declaration → Bool
  | [] => true
  | ⟨_, type, _⟩ :: ds => type.identified && identifiedParams ds
end

theorem identifiedMembers_tail {m : Member} {ms : List Member}
    (h : identifiedMembers (m :: ms) = true) : identifiedMembers ms = true := by
  cases m with
  | ignored what => exact h
  | declaration d =>
    obtain ⟨name, type, location⟩ := d
    exact (Bool.and_eq_true_iff.mp h).2

/-- A struct, union or enum that is an item need not be identified itself. -/
def Item.identified : Item → Bool
  | .typedef d => d.type.identified
  | .container _ spec => spec.members.elim true identifiedMembers
  | .enumeration _ => true
  | .declaration d => d.type.identified
  | .ignored _ => true

def SourceUnit.identified (u : SourceUnit) : Bool := u.items.all Item.identified

end CythonDecls
