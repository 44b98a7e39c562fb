import CythonDecls.Proofs.Graph.Closed
import CythonDecls.Proofs.Tree.Tags
import CythonDecls.Proofs.Tree.Uses
import CythonDecls.Translation.Walk

/-!
# The recursion of the walks

The walks over types, functions, arguments, bodies and members call each other.
What is shown of them is shown of all of them at once, by one induction whose
cases are the forms that they tell apart.
-/

namespace CythonDecls

/-- What a declarator makes of one type: a pointer to it or an array of it. -/
inductive Indirection where
  | pointer
  | array (dim : Option UInt64)

namespace Indirection

def type : Indirection → TypeExpr → TypeExpr
  | pointer, target => .pointer target
  | array dim, target => .array target dim

def node : Indirection → Handle → Node
  | pointer, target => .pointer target
  | array dim, target => .array target dim

section
variable (d : Indirection) (target : TypeExpr) (k : Handle)

@[simp] theorem bodies_type (place : Body.Place) :
    (d.type target).bodies place = target.bodies .nested := by
  cases d <;> rfl

@[simp] theorem tags_type : (d.type target).tags = target.tags := by
  cases d <;> rfl

@[simp] theorem identified_type : (d.type target).identified = target.identified := by
  cases d <;> rfl

@[simp] theorem isDefinition_type : (d.type target).isDefinition = false := by
  cases d <;> rfl

@[simp] theorem isAggregate_type : (d.type target).isAggregate = false := by
  cases d <;> rfl

@[simp] theorem children_node : (d.node k).children = [k] := by
  cases d <;> rfl

@[simp] theorem isAggregate_node : (d.node k).isAggregate = false := by
  cases d <;> rfl

@[simp] theorem hasBody_node : (d.node k).hasBody = false := by
  cases d <;> rfl

@[simp] theorem typedef?_node : (d.node k).typedef? = none := by
  cases d <;> rfl

end

end Indirection

namespace Walk

theorem resolve_indirection (site : Site) (d : Indirection) (target : TypeExpr) :
    resolve site (d.type target) = (do
      let k ← resolve site.inside target
      add (d.node k)) := by
  cases d <;> rw [Indirection.type, resolve] <;> rfl

/-- A struct, union or enum is read with a tag that is made up where a definition has none, and a
definition that is nested is hoisted. -/
def definition (site : Site) (ty : TypeExpr) (tag : Option String)
    (w : Option String → Walk Handle) :
    Walk Handle := do
  let invented ← inventTag (ty.isDefinition && tag.isNone) site
  let h ← w invented
  if ty.isDefinition ∧ site.position = .nested then hoist h
  return h

theorem resolve_container (site : Site) (kind : ContainerKind) (spec : ContainerSpec) :
    resolve site (.container kind spec) = definition site (.container kind spec) spec.tag
      (container kind · spec) := by
  rw [resolve]
  rfl

theorem resolve_enumeration (site : Site) (spec : EnumSpec) :
    resolve site (.enumeration spec) = definition site (.enumeration spec) spec.tag
      (enumeration spec) := by
  rw [resolve]
  rfl

section
variable {owner : Option String} {label : String} {ms : List Member}

theorem members_alone {type : TypeExpr} {location : Option Location} (h : type.Alone) :
    members owner label (.declaration ⟨none, type, location⟩ :: ms) = (do
      let _ ← resolve ⟨none, none, location, .nested⟩ type
      members owner label ms) := by
  cases h with
  | container h => exact members.eq_5 _ _ _ _ _ _ h
  | enumeration spec => rw [members]

theorem members_passed {m : Member} (h : m.Passed) :
    members owner label (m :: ms) = members owner label ms := by
  cases h with
  | ignored what => rw [members]
  | unnamed hc he => exact members.eq_7 _ _ _ _ _ (fun kind _ _ => hc kind _) hc he

end

/-- The cases of an induction over all walks at once. -/
theorem induct {T : Site → TypeExpr → Prop} {F : String → Option Location → Signature → Prop}
    {A : String → Option Location → List Declaration → Prop}
    {C : ContainerKind → Option String → ContainerSpec → Prop}
    {M : Option String → String → List Member → Prop}
    (derived : ∀ site (d : Indirection) target, T site.inside target → T site (d.type target))
    (word : ∀ site words, T site (.identifier words))
    (container : ∀ site kind spec, (∀ invented, C kind invented spec) →
      T site (.container kind spec))
    (enumeration : ∀ site spec, T site (.enumeration spec))
    (function : ∀ site sig, F (site.name.getD "") site.location sig → T site (.function sig))
    (reference : ∀ kind invented tag location, C kind invented ⟨tag, none, location⟩)
    (body : ∀ kind invented tag ms location, (∀ owner label, M owner label ms) →
      C kind invented ⟨tag, some ms, location⟩)
    (signature : ∀ name location returns params variadic,
      T ⟨some name, none, location, .nested⟩ returns → A name location params →
        F name location ⟨returns, params, variadic⟩)
    (noArgument : ∀ name here, A name here [])
    (argument : ∀ name here argument type location ds,
      T ⟨argument <|> some name, argument.map fun _ => name, location <|> here, .nested⟩ type →
        A name here ds → A name here (⟨argument, type, location⟩ :: ds))
    (noMember : ∀ owner label, M owner label [])
    (passed : ∀ owner label m ms, m.Passed → M owner label ms → M owner label (m :: ms))
    (named : ∀ owner label name type location ms, T ⟨some name, owner, location, .member⟩ type →
      M owner label ms → M owner label (.declaration ⟨some name, type, location⟩ :: ms))
    (spliced : ∀ owner label kind inner place location ms, C kind none ⟨none, some inner, place⟩ →
      M owner label ms →
        M owner label (.declaration ⟨none, .container kind ⟨none, some inner, place⟩,
          location⟩ :: ms))
    (alone : ∀ owner label type location ms, type.Alone →
      T ⟨none, none, location, .nested⟩ type → M owner label ms →
        M owner label (.declaration ⟨none, type, location⟩ :: ms)) :
    (∀ site ty, T site ty) ∧ (∀ name location sig, F name location sig) ∧
      (∀ name here ds, A name here ds) ∧ (∀ kind invented spec, C kind invented spec) ∧
      ∀ owner label ms, M owner label ms := by
  refine resolve.mutual_induct T F A C M ?pointer ?array word container enumeration function
    reference body signature noArgument argument noMember ?ignored named spliced ?unnamed
    ?unnamedEnum ?skipped
  case pointer => exact fun site target => derived site .pointer target
  case array => exact fun site target dim => derived site (.array dim) target
  case ignored => exact fun owner label what ms => passed owner label _ ms (.ignored what)
  case unnamed =>
    exact fun owner label kind spec location ms h => alone owner label _ location ms (.container h)
  case unnamedEnum =>
    exact fun owner label spec location ms => alone owner label _ location ms (.enumeration spec)
  case skipped =>
    exact fun owner label type location ms _ hc he => passed owner label _ ms (.unnamed hc he)

end Walk

end CythonDecls
