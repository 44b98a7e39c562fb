import CythonDecls.Translation.Enumerators

/-!
# From parse trees to the declaration graph

Every type becomes a node, every mention of a tag or typedef the one node of
that name. A definition inside a declaration cannot stay there: it is hoisted,
and goes before the item it was met in. Definitions in the place of a member's
type or a typedef's target keep their place for now.
-/

namespace CythonDecls

/-- Where a type stands in its declaration. -/
inductive Position where
  | member
  | typedefTarget
  | nested
  deriving DecidableEq, Repr

/-- What surrounds a type: the name of the nearest declaration, the struct,
union or function it belongs to, its location, and its position. -/
structure Site where
  name : Option String
  owner : Option String
  location : Option Location
  position : Position

def Site.inside (s : Site) : Site := { s with position := .nested }

/-- The tag that an anonymous definition at this site gets, if none has it. -/
def Site.baseTag (s : Site) : Option String :=
  s.name.map fun name =>
    match s.owner with
    | some owner => s!"__{owner}_{name}"
    | none => s!"__{name}"

namespace Walk

/-- A nested definition without a tag gets one, from its site. -/
def inventTag (isAnonymous : Bool) (site : Site) : Walk (Option String) := do
  match site.baseTag with
  | some base =>
    if isAnonymous ∧ site.position = .nested then
      let tag := (← get).freeTag base
      modify fun t => { t with invented := tag :: t.invented }
      return some tag
    else return none
  | none => return none

/-- A typedef's name, or the words of a fundamental type. -/
def identifier (words : List String) (location : Option Location) : Walk Handle := do
  let t ← get
  let known := match words with
    | [name] => t.typedefs.find? name
    | _ => none
  match known with
  | some h => return h
  | none =>
    if Specifier.isSequence words then
      let (h, g) := t.graph.fundamental words
      set { t with graph := g }
      return h
    else throw (.unknownType (" ".intercalate words) location)

/-- The node of a struct or union: the one its tag has, or a new one. -/
def containerNode (kind : ContainerKind) (tag invented : Option String)
    (location : Option Location) : Walk Handle := do
  match tag with
  | none => add (.container kind ⟨invented, [], location⟩)
  | some tag =>
    match ((← get).containers kind).find? tag with
    | some h => return h
    | none =>
      let h ← add (.container kind ⟨some tag, [], location⟩)
      modify (·.enterContainer kind tag h)
      return h

/-- The node of an enum: the one its tag has, or a new one. -/
def enumNode (tag invented : Option String) (location : Option Location) : Walk Handle := do
  match tag with
  | none => add (.enumeration ⟨invented, [], location⟩)
  | some tag =>
    match (← get).enums.find? tag with
    | some h => return h
    | none =>
      let h ← add (.enumeration ⟨some tag, [], location⟩)
      modify fun t => { t with enums := t.enums.insert tag h }
      return h

/-- Gives an enum its values. A location replaces the one known so far. -/
def setValues (h : Handle) (values : List EnumValue) (location : Option Location) :
    Walk Unit :=
  modifyGraph fun g =>
    match g.get? h with
    | some (.enumeration e) =>
      g.set h (.enumeration { e with values, location := location <|> e.location })
    | _ => g

def enumeration (spec : EnumSpec) (invented : Option String) : Walk Handle := do
  let h ← enumNode spec.tag invented spec.location
  match spec.enumerators with
  | none => return h
  | some es =>
    let values ← enumValues es
    setValues h values spec.location
    return h

def tagOf (h : Handle) : Walk (Option String) := do
  return (← get).graph.get? h >>= Node.tag?

def labelOf (h : Handle) : Walk String := do
  match (← get).graph.get? h with
  | some n => return n.tag?.getD n.anonymousName
  | none => return h.text

def fieldsOf (h : Handle) : Walk (List Field) := do
  match (← get).graph.container? h with
  | some c => return c.fields
  | none => return []

mutual
def resolve (site : Site) : TypeExpr → Walk Handle
  | .pointer target => do
    let target ← resolve site.inside target
    add (.pointer target)
  | .array target dim => do
    let target ← resolve site.inside target
    add (.array target dim)
  | .identifier words => identifier words site.location
  | .container kind spec => do
    let defines := spec.members.isSome
    let invented ← inventTag (defines && spec.tag.isNone) site
    let h ← container kind invented spec
    if defines ∧ site.position = .nested then hoist h
    return h
  | .enumeration spec => do
    let defines := spec.enumerators.isSome
    let invented ← inventTag (defines && spec.tag.isNone) site
    let h ← enumeration spec invented
    if defines ∧ site.position = .nested then hoist h
    return h
  | .function signature => function (site.name.getD "") site.location signature

/-- A struct or union. Its body, if there is one, replaces the fields. -/
def container (kind : ContainerKind) (invented : Option String) : ContainerSpec → Walk Handle
  | ⟨tag, none, location⟩ => containerNode kind tag invented location
  | ⟨tag, some ms, location⟩ => do
    let h ← containerNode kind tag invented location
    let owner ← tagOf h
    let label ← labelOf h
    let fields ← members owner label ms
    tryGraph (·.modifyContainer h fun c =>
      { c with fields, location := location <|> c.location })
    return h

/-- The fields of a body. A member without a name that has an anonymous body
contributes the fields of that body; other unnamed members contribute none. -/
def members (owner : Option String) (label : String) : List Member → Walk (List Field)
  | [] => return []
  | .ignored _ :: ms => members owner label ms
  | .declaration ⟨some name, type, location⟩ :: ms => do
    let site : Site := ⟨some name, owner, location, .member⟩
    let h ← ExceptT.adapt (·.inMember label name) (resolve site type)
    let fields ← members owner label ms
    return ⟨name, h, .readWrite, type.isDefinition⟩ :: fields
  | .declaration ⟨none, .container kind ⟨none, some inner, place⟩, _⟩ :: ms => do
    let h ← container kind none ⟨none, some inner, place⟩
    let spliced ← fieldsOf h
    let fields ← members owner label ms
    return spliced ++ fields
  | .declaration ⟨none, .container kind spec, location⟩ :: ms => do
    let _ ← resolve ⟨none, none, location, .nested⟩ (.container kind spec)
    members owner label ms
  | .declaration ⟨none, .enumeration spec, location⟩ :: ms => do
    let _ ← resolve ⟨none, none, location, .nested⟩ (.enumeration spec)
    members owner label ms
  | .declaration ⟨none, _, _⟩ :: ms => members owner label ms

/-- A function type, and the function of that name. -/
def function (name : String) (location : Option Location) : Signature → Walk Handle
  | ⟨returns, params, variadic⟩ => do
    let returns ← resolve ⟨some name, none, location, .nested⟩ returns
    let args ← arguments name location params
    add (.function ⟨name, returns, args, variadic, location⟩)

/-- The arguments of a function, which are at its location unless they have
their own. -/
def arguments (function : String) (here : Option Location) :
    List Declaration → Walk (List Argument)
  | [] => return []
  | ⟨name, type, location⟩ :: ds => do
    let site : Site :=
      ⟨name <|> some function, name.map fun _ => function, location <|> here, .nested⟩
    let h ← resolve site type
    let args ← arguments function here ds
    return ⟨name, h⟩ :: args
end

/-! ## Items -/

/-- A typedef is entered before its target is read, so the target may use it. -/
def typedef (d : TypedefDecl) : Walk Handle := do
  match (← get).typedefs.find? d.name with
  | some h => return h
  | none =>
    let h ← add (.typedef ⟨d.name, none, d.location⟩)
    modify fun t => { t with typedefs := t.typedefs.insert d.name h }
    let target ← resolve ⟨some d.name, none, d.location, .typedefTarget⟩ d.type
    tryGraph (·.assignTarget h target)
    return h

/-- A named declaration: a function the first time its name is met, or a
variable. -/
def declare (name : String) (type : TypeExpr) (location : Option Location) : Walk Unit := do
  match type with
  | .function signature =>
    if (← get).functions.contains name then return
    let h ← function name location signature
    modify fun t => { t with functions := t.functions.insert name h }
    place h
  | type =>
    let h ← resolve ⟨some name, none, location, .nested⟩ type
    let v ← add (.object ⟨name, h, location⟩)
    place v

/-- A definition takes the place of an earlier mention. -/
def placeTagged (h : Handle) (defines : Bool) : Walk Unit := do
  if defines then modifyGraph (·.mapModule (·.remove h))
  place h

def item : Item → Walk Unit
  | .typedef d => do place (← typedef d)
  | .container kind spec => do
    let h ← container kind none spec
    placeTagged h spec.members.isSome
  | .enumeration spec => do
    let h ← enumeration spec none
    placeTagged h spec.enumerators.isSome
  | .declaration ⟨some name, type, location⟩ => declare name type location
  | .declaration ⟨none, _, _⟩ => return
  | .ignored _ => return

def sourceUnit (u : SourceUnit) : Walk Unit := u.items.forM item

end Walk

/-- Feeds a unit to a translator. The first error ends the unit. -/
def Translator.feed (t : Translator) (u : SourceUnit) : Except TranslateError Unit × Translator :=
  (Walk.sourceUnit u).run t

def SourceUnit.translate (u : SourceUnit) : Except TranslateError Graph :=
  match Translator.start.feed u with
  | (.ok (), t) => .ok t.graph
  | (.error e, _) => .error e

end CythonDecls
