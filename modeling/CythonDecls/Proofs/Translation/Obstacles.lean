import CythonDecls.Proofs.Translation.Recursion

/-!
# What a translation may stumble over

Two things in a tree cannot be translated: words that are neither a typedef
known by then nor a fundamental type, and enumerators without a value. They are
listed here in the order in which a translation comes to them, each with the
named members it is inside of. Only the tree is read, and which typedefs and
functions were met before.
-/

namespace CythonDecls

/-! ## Tags -/

/-- A tag as the tree has it: written out, or made up for an anonymous
definition that has to move, from its name and that of its owner. -/
inductive Label where
  | written (text : String)
  | made (name : String)
  | madeIn (owner : Label) (name : String)

/-- A made-up tag is one of the candidates for it. -/
def Label.Spells : Label → String → Prop
  | written text, tag => tag = text
  | made name, tag => ∃ n, tag = Translator.candidate s!"__{name}" n
  | madeIn owner name, tag =>
    ∃ outer n, owner.Spells outer ∧ tag = Translator.candidate s!"__{outer}_{name}" n

/-- What surrounds a type in the tree. -/
structure Spot where
  name : Option String
  owner : Option Label
  location : Option Location
  position : Position

namespace Spot

def inside (s : Spot) : Spot := { s with position := .nested }

/-- The tag that a definition gets at this spot if it has none. -/
def label? (s : Spot) (isAnonymous : Bool) : Option Label :=
  if isAnonymous ∧ s.position = .nested then
    s.name.map fun name =>
      match s.owner with
      | some owner => .madeIn owner name
      | none => .made name
  else none

end Spot

/-! ## Obstacles -/

inductive Cause where
  | words (words : List String) (location : Option Location)
  | enumerator (name : String) (source : Constant.Error)

/-- A named member, and the body it is a member of. -/
structure Enclosure where
  kind : ContainerKind
  tag : Option Label
  member : String

/-- Something that cannot be translated, and the named members around it, the
innermost first. -/
structure Obstacle where
  cause : Cause
  within : List Enclosure

def Obstacle.enclose (e : Enclosure) (o : Obstacle) : Obstacle :=
  { o with within := o.within ++ [e] }

def isResolvable (typedefs : List String) (words : List String) : Bool :=
  (match words with
    | [name] => typedefs.contains name
    | _ => false)
    || Specifier.isSequence words

def Enumerator.obstacles (e : Enumerator) : List Obstacle :=
  match e.value with
  | none => []
  | some expr =>
    match Constant.evaluateIntegral expr with
    | .ok _ => []
    | .error source => [⟨.enumerator e.name source, []⟩]

def EnumSpec.obstacles : EnumSpec → List Obstacle
  | ⟨_, some es, _⟩ => es.flatMap Enumerator.obstacles
  | ⟨_, none, _⟩ => []

mutual
def TypeExpr.obstacles (typedefs : List String) (spot : Spot) : TypeExpr → List Obstacle
  | .pointer target => target.obstacles typedefs spot.inside
  | .array target _ => target.obstacles typedefs spot.inside
  | .identifier words =>
    if isResolvable typedefs words then [] else [⟨.words words spot.location, []⟩]
  | .container kind spec =>
    spec.obstacles typedefs kind (spot.label? (spec.members.isSome && spec.tag.isNone))
  | .enumeration spec => spec.obstacles
  | .function sig => sig.obstacles typedefs (spot.name.getD "") spot.location

def ContainerSpec.obstacles (typedefs : List String) (kind : ContainerKind) (made : Option Label) :
    ContainerSpec → List Obstacle
  | ⟨_, none, _⟩ => []
  | ⟨tag, some ms, _⟩ => obstaclesOfMembers typedefs kind ((tag.map Label.written).or made) ms

def obstaclesOfMembers (typedefs : List String) (kind : ContainerKind) (tag : Option Label) :
    List Member → List Obstacle
  | [] => []
  | .ignored _ :: ms => obstaclesOfMembers typedefs kind tag ms
  | .declaration ⟨some name, type, location⟩ :: ms =>
    (type.obstacles typedefs ⟨some name, tag, location, .member⟩).map
        (Obstacle.enclose ⟨kind, tag, name⟩)
      ++ obstaclesOfMembers typedefs kind tag ms
  | .declaration ⟨none, .container inner ⟨none, some members, place⟩, _⟩ :: ms =>
    ContainerSpec.obstacles typedefs inner none ⟨none, some members, place⟩
      ++ obstaclesOfMembers typedefs kind tag ms
  | .declaration ⟨none, .container inner spec, location⟩ :: ms =>
    TypeExpr.obstacles typedefs ⟨none, none, location, .nested⟩ (.container inner spec)
      ++ obstaclesOfMembers typedefs kind tag ms
  | .declaration ⟨none, .enumeration spec, _⟩ :: ms =>
    spec.obstacles ++ obstaclesOfMembers typedefs kind tag ms
  | .declaration ⟨none, _, _⟩ :: ms => obstaclesOfMembers typedefs kind tag ms

def Signature.obstacles (typedefs : List String) (name : String) (location : Option Location) :
    Signature → List Obstacle
  | ⟨returns, params, _⟩ =>
    returns.obstacles typedefs ⟨some name, none, location, .nested⟩
      ++ obstaclesOfParams typedefs name location params

def obstaclesOfParams (typedefs : List String) (function : String) (here : Option Location) :
    List Declaration → List Obstacle
  | [] => []
  | ⟨name, type, location⟩ :: ds =>
    type.obstacles typedefs
        ⟨name <|> some function, name.map fun _ => .written function, location <|> here, .nested⟩
      ++ obstaclesOfParams typedefs function here ds
end

section
variable {typedefs : List String} {kind : ContainerKind} {tag : Option Label}

@[simp] theorem Indirection.obstacles_type (d : Indirection) (target : TypeExpr) (spot : Spot) :
    (d.type target).obstacles typedefs spot = target.obstacles typedefs spot.inside := by
  cases d <;> rfl

theorem obstaclesOfMembers_alone {type : TypeExpr} {location : Option Location} {ms : List Member}
    (h : type.Alone) :
    obstaclesOfMembers typedefs kind tag (.declaration ⟨none, type, location⟩ :: ms) =
      type.obstacles typedefs ⟨none, none, location, .nested⟩
        ++ obstaclesOfMembers typedefs kind tag ms := by
  cases h with
  | container h =>
    rw [obstaclesOfMembers]
    exact h
  | enumeration spec => rfl

theorem obstaclesOfMembers_passed {m : Member} {ms : List Member} (h : m.Passed) :
    obstaclesOfMembers typedefs kind tag (m :: ms) = obstaclesOfMembers typedefs kind tag ms := by
  cases h with
  | ignored what => rfl
  | unnamed hc he =>
    rw [obstaclesOfMembers]
    · exact fun kind inner place => hc kind _
    · exact hc
    · exact he

end

/-! ## Units -/

/-- The typedefs and functions that were met so far. -/
structure Known where
  typedefs : List String
  functions : List String

/-- What a translation comes to in an item. A typedef or function that is known
is passed over, and a typedef is known in its own target. -/
def Item.obstacles (known : Known) : Item → List Obstacle
  | .typedef d =>
    if known.typedefs.contains d.name then []
    else d.type.obstacles (d.name :: known.typedefs) ⟨some d.name, none, d.location, .typedefTarget⟩
  | .container kind spec => spec.obstacles known.typedefs kind none
  | .enumeration spec => spec.obstacles
  | .declaration ⟨some name, .function sig, location⟩ =>
    if known.functions.contains name then [] else sig.obstacles known.typedefs name location
  | .declaration ⟨some name, type, location⟩ =>
    type.obstacles known.typedefs ⟨some name, none, location, .nested⟩
  | .declaration ⟨none, _, _⟩ => []
  | .ignored _ => []

namespace Known

def none : Known := ⟨[], []⟩

/-- What is known behind an item. The name of a typedef counts from the start,
that of a function when all of it was read. -/
def after (known : Known) (i : Item) : Known :=
  match i with
  | .typedef d => { known with typedefs := d.name :: known.typedefs }
  | .declaration ⟨some name, .function _, _⟩ =>
    if (i.obstacles known).isEmpty then { known with functions := name :: known.functions }
    else known
  | _ => known

/-- Reads items up to the first obstacle. -/
def read (known : Known) : List Item → Option Obstacle × Known
  | [] => (.none, known)
  | i :: is =>
    match i.obstacles known with
    | o :: _ => (some o, known.after i)
    | [] => (known.after i).read is

/-- What is known behind several units, each read up to its first obstacle. -/
def afterUnits (known : Known) (us : List SourceUnit) : Known :=
  us.foldl (fun known u => (known.read u.items).2) known

end Known

end CythonDecls
