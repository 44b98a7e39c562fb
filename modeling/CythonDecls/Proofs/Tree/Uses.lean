import CythonDecls.Proofs.Tree.Bodies

/-!
# The typedefs that a tree uses

A type uses the names that its declarator ends in, those of its arguments
included. What is behind a struct, union or enum is no use of the type, but of
the body there, where it is written in place. An item uses what its own type
and its bodies use.
-/

namespace CythonDecls

mutual
def TypeExpr.uses : TypeExpr → List String
  | .pointer target => target.uses
  | .array target _ => target.uses
  | .identifier [name] => [name]
  | .identifier _ => []
  | .container _ _ => []
  | .enumeration _ => []
  | .function sig => sig.uses

def Signature.uses : Signature → List String
  | ⟨returns, params, _⟩ => returns.uses ++ usesOfParams params

def usesOfParams : List Declaration → List String
  | [] => []
  | ⟨_, type, _⟩ :: ds => type.uses ++ usesOfParams ds
end

def TypeExpr.body? : TypeExpr → Option Body
  | .container kind ⟨tag, some ms, _⟩ => some (.container .member kind tag ms)
  | .enumeration ⟨tag, some es, _⟩ => some (.enumeration .member tag es)
  | _ => none

theorem TypeExpr.isDefinition_iff {type : TypeExpr} :
    type.isDefinition = true ↔ ∃ b, type.body? = some b := by
  cases type with
  | container kind spec => obtain ⟨tag, _ | ms, location⟩ := spec <;> simp [isDefinition, body?]
  | enumeration spec => obtain ⟨tag, _ | es, location⟩ := spec <;> simp [isDefinition, body?]
  | _ => simp [isDefinition, body?]

theorem TypeExpr.bodies_of_body? {type : TypeExpr} {b : Body} (hb : type.body? = some b) :
    ∃ bs, type.bodies .member = bs ++ [b] := by
  cases type with
  | container kind spec =>
    obtain ⟨tag, _ | ms, location⟩ := spec
    · cases hb
    · cases hb
      exact ⟨bodiesOfMembers ms, rfl⟩
  | enumeration spec =>
    obtain ⟨tag, _ | es, location⟩ := spec
    · cases hb
    · cases hb
      exact ⟨[], rfl⟩
  | _ => cases hb

mutual
/-- The bodies that members hold in place, at any depth. The fields of a spliced
body are those of the outer one. -/
def inPlaceOfMembers : List Member → List Body
  | [] => []
  | .ignored _ :: ms => inPlaceOfMembers ms
  | .declaration ⟨some _, type, _⟩ :: ms => type.inPlace ++ inPlaceOfMembers ms
  | .declaration ⟨none, type, _⟩ :: ms => type.inPlaceSpliced ++ inPlaceOfMembers ms

def TypeExpr.inPlace : TypeExpr → List Body
  | .container kind spec => spec.inPlace kind
  | .enumeration spec => spec.bodies .member
  | _ => []

def ContainerSpec.inPlace (kind : ContainerKind) : ContainerSpec → List Body
  | ⟨tag, some ms, _⟩ => .container .member kind tag ms :: inPlaceOfMembers ms
  | ⟨_, none, _⟩ => []

def TypeExpr.inPlaceSpliced : TypeExpr → List Body
  | .container _ spec => spec.inPlaceSpliced
  | _ => []

def ContainerSpec.inPlaceSpliced : ContainerSpec → List Body
  | ⟨none, some ms, _⟩ => inPlaceOfMembers ms
  | _ => []
end

namespace Body

def uses : Body → List String
  | container _ _ _ ms => (resultingFields ms).flatMap (·.2.uses)
  | enumeration .. => []

def inside : Body → List Body
  | container _ _ _ ms => inPlaceOfMembers ms
  | enumeration .. => []

end Body

mutual
theorem inPlaceOfMembers_eq : ∀ ms : List Member,
    inPlaceOfMembers ms = (resultingFields ms).flatMap (·.2.inPlace)
  | [] => rfl
  | .ignored _ :: ms => inPlaceOfMembers_eq ms
  | .declaration ⟨some _, type, _⟩ :: ms => congrArg (type.inPlace ++ ·) (inPlaceOfMembers_eq ms)
  | .declaration ⟨none, type, _⟩ :: ms => by
    rw [inPlaceOfMembers, resultingFields, List.flatMap_append, ← type.inPlaceSpliced_eq,
      ← inPlaceOfMembers_eq ms]

theorem TypeExpr.inPlaceSpliced_eq : ∀ type : TypeExpr,
    type.inPlaceSpliced = type.splicedFields.flatMap (·.2.inPlace)
  | .container _ spec => spec.inPlaceSpliced_eq
  | .pointer _ => rfl
  | .array _ _ => rfl
  | .identifier _ => rfl
  | .enumeration _ => rfl
  | .function _ => rfl

theorem ContainerSpec.inPlaceSpliced_eq : ∀ spec : ContainerSpec,
    spec.inPlaceSpliced = spec.splicedFields.flatMap (·.2.inPlace)
  | ⟨none, some ms, _⟩ => inPlaceOfMembers_eq ms
  | ⟨none, none, _⟩ => rfl
  | ⟨some _, some _, _⟩ => rfl
  | ⟨some _, none, _⟩ => rfl
end

theorem inPlace_of_field {ms : List Member} {w : String × TypeExpr} (hw : w ∈ resultingFields ms)
    {b : Body} (hb : w.2.body? = some b) :
    b ∈ inPlaceOfMembers ms ∧ ∀ c ∈ b.inside, c ∈ inPlaceOfMembers ms := by
  rw [inPlaceOfMembers_eq]
  have hmem {c : Body} (hc : c ∈ w.2.inPlace) : c ∈ (resultingFields ms).flatMap (·.2.inPlace) :=
    List.mem_flatMap.mpr ⟨w, hw, hc⟩
  obtain ⟨name, type⟩ := w
  cases type with
  | container kind spec =>
    obtain ⟨tag, _ | inner, location⟩ := spec
    · cases hb
    · cases hb
      exact ⟨hmem List.mem_cons_self, fun c hc => hmem (List.mem_cons_of_mem _ hc)⟩
  | enumeration spec =>
    obtain ⟨tag, _ | es, location⟩ := spec
    · cases hb
    · cases hb
      exact ⟨hmem List.mem_cons_self, fun c hc => nomatch hc⟩
  | _ => cases hb

/-! ## Items -/

def TypeExpr.isAggregate : TypeExpr → Bool
  | .container _ _ => true
  | .enumeration _ => true
  | _ => false

theorem TypeExpr.Alone.isAggregate {type : TypeExpr} (h : type.Alone) :
    type.isAggregate = true := by
  cases h <;> rfl

theorem TypeExpr.bodies_of_reference {type : TypeExpr} (ha : type.isAggregate = true)
    (hd : type.isDefinition = false) (place : Body.Place) : type.bodies place = [] := by
  cases type with
  | container kind spec =>
    obtain ⟨tag, _ | ms, location⟩ := spec
    · rfl
    · cases hd
  | enumeration spec =>
    obtain ⟨tag, _ | es, location⟩ := spec
    · rfl
    · cases hd
  | _ => cases ha

def TypeExpr.key? : TypeExpr → Option (Option ContainerKind × String)
  | .container kind spec => spec.tag.map (some kind, ·)
  | .enumeration spec => spec.tag.map (none, ·)
  | _ => none

namespace Item

/-- The tag that an item has itself, or that its typedef is for. -/
def key? : Item → Option (Option ContainerKind × String)
  | typedef d => d.type.key?
  | container kind spec => spec.tag.map (some kind, ·)
  | enumeration spec => spec.tag.map (none, ·)
  | _ => none

def isTypedef : Item → Bool
  | typedef _ => true
  | _ => false

def typeUses : Item → List String
  | typedef d => d.type.uses
  | declaration ⟨some _, type, _⟩ => type.uses
  | _ => []

def uses (i : Item) : List String := i.typeUses ++ i.bodies.flatMap Body.uses

theorem uses_of_body {i : Item} {b : Body} (hb : b ∈ i.bodies) {name : String}
    (hname : name ∈ b.uses) : name ∈ i.uses :=
  List.mem_append_right _ (List.mem_flatMap.mpr ⟨b, hb, hname⟩)

end Item

/-! ## Bodies whose tag is known -/

/-- What of a body is printed where the earlier item `first` with its tag stands. A mention
of the tag moves to a definition that is an item, and becomes any other one. A typedef
declares the body unless that is an item, but what is in place inside of the body is
printed there anyway. -/
def Body.earlyUses (first : Item) (b : Body) : List String :=
  match b.place, first.isTypedef with
  | .item, false => []
  | .item, true => b.inside.flatMap uses
  | .nested, true => b.inside.flatMap uses
  | _, _ => b.uses ++ b.inside.flatMap uses

section
variable {first : Item} {b c : Body} {name : String}

theorem Body.earlyUses_own (hitem : b.place ≠ .item)
    (hnested : first.isTypedef = true → b.place ≠ .nested) (hname : name ∈ b.uses) :
    name ∈ b.earlyUses first := by
  have hmem : name ∈ b.uses ++ b.inside.flatMap Body.uses := List.mem_append_left _ hname
  unfold earlyUses
  split
  · exact absurd ‹_› hitem
  · exact absurd ‹_› hitem
  · exact absurd ‹_› (hnested ‹_›)
  · exact hmem

theorem Body.earlyUses_inside (hitem : b.place = .item → first.isTypedef = true)
    (hc : c ∈ b.inside) (hname : name ∈ c.uses) : name ∈ b.earlyUses first := by
  have hmem : name ∈ b.inside.flatMap Body.uses := List.mem_flatMap.mpr ⟨c, hc, hname⟩
  unfold earlyUses
  split
  · rename_i hplace hfirst
    exact absurd (hitem hplace) (Bool.eq_false_iff.mp hfirst)
  · exact hmem
  · exact hmem
  · exact List.mem_append_right _ hmem

end

def Item.earlyUses (i first : Item) : List String :=
  (i.bodies.filter fun b => b.key? ≠ none ∧ first.key? = b.key?).flatMap (·.earlyUses first)

theorem Item.mem_earlyUses {first i : Item} {b : Body} (hb : b ∈ i.bodies) (htag : b.key? ≠ none)
    (hkey : first.key? = b.key?) {name : String} (hname : name ∈ b.earlyUses first) :
    name ∈ i.earlyUses first :=
  List.mem_flatMap.mpr ⟨b, List.mem_filter.mpr ⟨hb, decide_eq_true ⟨htag, hkey⟩⟩, hname⟩

end CythonDecls
