import CythonDecls.Tree.Basic

/-!
# The bodies of a tree

A body is a struct, union or enum that is written out, wherever that is: as an
item, as the target of a typedef, as the type of a member, or deeper inside of
a declaration. Bodies come in the order in which their ends are met, so a body
stands behind the bodies inside of it. An unnamed member of pointer, array or
function type declares nothing, and neither does an unnamed declaration: what
is inside of them is not read.
-/

namespace CythonDecls

/-- Where a body is written. -/
inductive Body.Place where
  | item
  /-- As the whole target of a typedef. -/
  | target
  /-- As the whole type of a named member. -/
  | member
  /-- As an unnamed member without a tag, whose fields are those of the outer body. -/
  | spliced
  /-- Under a pointer, an array or a function, or as any other unnamed member. -/
  | nested
  deriving DecidableEq

inductive Body where
  | container (place : Body.Place) (kind : ContainerKind) (tag : Option String)
    (members : List Member)
  | enumeration (place : Body.Place) (tag : Option String) (enumerators : List Enumerator)

namespace Body

def place : Body → Body.Place
  | container place .. => place
  | enumeration place .. => place

def tag : Body → Option String
  | container _ _ tag _ => tag
  | enumeration _ tag _ => tag

def kind : Body → Option ContainerKind
  | container _ kind .. => some kind
  | enumeration .. => none

/-- What a body defines. -/
def key? (b : Body) : Option (Option ContainerKind × String) := b.tag.map (b.kind, ·)

end Body

def EnumSpec.bodies (place : Body.Place) : EnumSpec → List Body
  | ⟨tag, some es, _⟩ => [.enumeration place tag es]
  | ⟨_, none, _⟩ => []

mutual
def TypeExpr.bodies (place : Body.Place) : TypeExpr → List Body
  | .pointer target => target.bodies .nested
  | .array target _ => target.bodies .nested
  | .identifier _ => []
  | .container kind spec => spec.bodies kind place
  | .enumeration spec => spec.bodies place
  | .function sig => sig.bodies

def ContainerSpec.bodies (kind : ContainerKind) (place : Body.Place) : ContainerSpec → List Body
  | ⟨tag, some ms, _⟩ => bodiesOfMembers ms ++ [.container place kind tag ms]
  | ⟨_, none, _⟩ => []

def bodiesOfMembers : List Member → List Body
  | [] => []
  | .ignored _ :: ms => bodiesOfMembers ms
  | .declaration ⟨some _, type, _⟩ :: ms => type.bodies .member ++ bodiesOfMembers ms
  | .declaration ⟨none, .container kind ⟨none, some inner, place⟩, _⟩ :: ms =>
    ContainerSpec.bodies kind .spliced ⟨none, some inner, place⟩ ++ bodiesOfMembers ms
  | .declaration ⟨none, .container kind spec, _⟩ :: ms =>
    spec.bodies kind .nested ++ bodiesOfMembers ms
  | .declaration ⟨none, .enumeration spec, _⟩ :: ms => spec.bodies .nested ++ bodiesOfMembers ms
  | .declaration ⟨none, _, _⟩ :: ms => bodiesOfMembers ms

def Signature.bodies : Signature → List Body
  | ⟨returns, params, _⟩ => returns.bodies .nested ++ bodiesOfParams params

def bodiesOfParams : List Declaration → List Body
  | [] => []
  | ⟨_, type, _⟩ :: ds => type.bodies .nested ++ bodiesOfParams ds
end

def Item.bodies : Item → List Body
  | .typedef d => d.type.bodies .target
  | .container kind spec => spec.bodies kind .item
  | .enumeration spec => spec.bodies .item
  | .declaration ⟨some _, type, _⟩ => type.bodies .nested
  | .declaration ⟨none, _, _⟩ => []
  | .ignored _ => []

def SourceUnit.bodies (u : SourceUnit) : List Body := u.items.flatMap Item.bodies

/-! ## Fields -/

mutual
/-- The fields that members result in, with their types as written. -/
def resultingFields : List Member → List (String × TypeExpr)
  | [] => []
  | .ignored _ :: ms => resultingFields ms
  | .declaration ⟨some name, type, _⟩ :: ms => (name, type) :: resultingFields ms
  | .declaration ⟨none, type, _⟩ :: ms => type.splicedFields ++ resultingFields ms

/-- What an unnamed member of a type contributes. -/
def TypeExpr.splicedFields : TypeExpr → List (String × TypeExpr)
  | .container _ spec => spec.splicedFields
  | _ => []

def ContainerSpec.splicedFields : ContainerSpec → List (String × TypeExpr)
  | ⟨none, some ms, _⟩ => resultingFields ms
  | _ => []
end

/-! ## Unnamed members -/

/-- Without a name, such a type is a declaration of its own, which adds no field. -/
inductive TypeExpr.Alone : TypeExpr → Prop where
  | container {kind : ContainerKind} {spec : ContainerSpec}
      (h : ∀ inner place, spec ≠ ⟨none, some inner, place⟩) : Alone (.container kind spec)
  | enumeration (spec : EnumSpec) : Alone (.enumeration spec)

inductive Member.Passed : Member → Prop where
  | ignored (what : Ignored) : Passed (.ignored what)
  | unnamed {type : TypeExpr} {location : Option Location}
      (hc : ∀ kind spec, type ≠ .container kind spec) (he : ∀ spec, type ≠ .enumeration spec) :
      Passed (.declaration ⟨none, type, location⟩)

section
variable {type : TypeExpr} {location : Option Location} {m : Member} {ms : List Member}

theorem bodiesOfMembers_alone (h : type.Alone) :
    bodiesOfMembers (.declaration ⟨none, type, location⟩ :: ms) =
      type.bodies .nested ++ bodiesOfMembers ms := by
  cases h with
  | container h =>
    rw [bodiesOfMembers, TypeExpr.bodies]
    exact h
  | enumeration spec => rfl

theorem resultingFields_alone (h : type.Alone) :
    resultingFields (.declaration ⟨none, type, location⟩ :: ms) = resultingFields ms := by
  cases h with
  | @container kind spec h =>
    obtain ⟨_ | tag, _ | inner, place⟩ := spec <;> first | rfl | exact absurd rfl (h _ _)
  | enumeration spec => rfl

theorem bodiesOfMembers_passed (h : m.Passed) : bodiesOfMembers (m :: ms) = bodiesOfMembers ms := by
  cases h with
  | ignored what => rfl
  | unnamed hc he =>
    rw [bodiesOfMembers]
    · exact fun kind inner place => hc kind _
    · exact hc
    · exact he

theorem resultingFields_passed (h : m.Passed) : resultingFields (m :: ms) = resultingFields ms := by
  cases h with
  | ignored what => rfl
  | @unnamed type location hc he =>
    cases type with
    | container kind spec => exact absurd rfl (hc kind spec)
    | _ => rfl

end

def Body.names : Body → List String
  | .container _ _ _ ms => (resultingFields ms).map (·.1)
  | .enumeration _ _ es => es.map (·.name)

/-- A named member has this type, which has no tag and declares nothing. -/
def Body.Blank (b : Body) : Prop := b.place = .member ∧ b.tag = none ∧ b.names = []

instance (b : Body) : Decidable b.Blank :=
  inferInstanceAs (Decidable (b.place = .member ∧ b.tag = none ∧ b.names = []))

end CythonDecls
