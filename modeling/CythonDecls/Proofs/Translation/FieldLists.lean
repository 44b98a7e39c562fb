import CythonDecls.Proofs.Translation.Writes

/-!
# Field lists follow the source

Members are read one after another, and each adds to the fields what its form
says: a field under its name, the fields of a body without a tag in its place,
or nothing. What the members do to other aggregates on the way, or to the one
they are members of, does not change that list.
-/

namespace CythonDecls

open Walk

/-- Gives a body its fields. A location replaces the one known so far. -/
def Walk.setFields (h : Handle) (fields : List Field) (location : Option Location) : Walk Unit :=
  tryGraph (·.modifyContainer h fun c => { c with fields, location := location <|> c.location })

/-- Reading members of the body of `owner` leads from `t` to `t'` and gives the fields `fs`. -/
inductive Fills : Option String → Translator → List Member → List Field → Translator → Prop
  | nil (owner : Option String) (t : Translator) : Fills owner t [] [] t
  | ignored {owner : Option String} {t t' : Translator} {what : Ignored} {ms : List Member}
      {fs : List Field} (rest : Fills owner t ms fs t') : Fills owner t (.ignored what :: ms) fs t'
  | named {owner : Option String} {t t₁ t' : Translator} {name : String} {type : TypeExpr}
      {location : Option Location} {h : Handle} {ms : List Member} {fs : List Field}
      (resolved : (resolve ⟨some name, owner, location, .member⟩ type).run t = (.ok h, t₁))
      (rest : Fills owner t₁ ms fs t') :
      Fills owner t (.declaration ⟨some name, type, location⟩ :: ms)
        (⟨name, h, .readWrite, type.isDefinition⟩ :: fs) t'
  /-- A body without a tag is read into a node of its own, whose fields come first. -/
  | spliced {owner : Option String} {t t₁ t₂ t₃ t' : Translator} {kind : ContainerKind}
      {inner ms : List Member} {place location : Option Location} {h : Handle} {fs gs : List Field}
      (opened : (containerNode kind none none place).run t = (.ok h, t₁))
      (own : Fills (t₁.graph.get? h >>= Node.tag?) t₁ inner fs t₂)
      (closed : (setFields h fs place).run t₂ = (.ok ⟨⟩, t₃)) (rest : Fills owner t₃ ms gs t') :
      Fills owner t (.declaration ⟨none, .container kind ⟨none, some inner, place⟩, location⟩ :: ms)
        (fs ++ gs) t'
  | nested {owner : Option String} {t t₁ t' : Translator} {kind : ContainerKind}
      {spec : ContainerSpec} {location : Option Location} {h : Handle} {ms : List Member}
      {fs : List Field} (tagged : ∀ inner place, spec ≠ ⟨none, some inner, place⟩)
      (resolved : (resolve ⟨none, none, location, .nested⟩ (.container kind spec)).run t =
        (.ok h, t₁))
      (rest : Fills owner t₁ ms fs t') :
      Fills owner t (.declaration ⟨none, .container kind spec, location⟩ :: ms) fs t'
  | nestedEnum {owner : Option String} {t t₁ t' : Translator} {spec : EnumSpec}
      {location : Option Location} {h : Handle} {ms : List Member} {fs : List Field}
      (resolved : (resolve ⟨none, none, location, .nested⟩ (.enumeration spec)).run t = (.ok h, t₁))
      (rest : Fills owner t₁ ms fs t') :
      Fills owner t (.declaration ⟨none, .enumeration spec, location⟩ :: ms) fs t'
  | skipped {owner : Option String} {t t' : Translator} {type : TypeExpr}
      {location : Option Location} {ms : List Member} {fs : List Field}
      (container : ∀ kind spec, type ≠ .container kind spec)
      (enumeration : ∀ spec, type ≠ .enumeration spec) (rest : Fills owner t ms fs t') :
      Fills owner t (.declaration ⟨none, type, location⟩ :: ms) fs t'

/-- The body `ms` is read into the node of `h`, which has the fields `fs` then. -/
def BodyRead (kind : ContainerKind) (tag invented : Option String) (ms : List Member)
    (location : Option Location) (t : Translator) (h : Handle) (fs : List Field)
    (t' : Translator) : Prop :=
  ∃ t₁ t₂, (containerNode kind tag invented location).run t = (.ok h, t₁) ∧
    Fills (t₁.graph.get? h >>= Node.tag?) t₁ ms fs t₂ ∧
    (setFields h fs location).run t₂ = (.ok ⟨⟩, t')

/-- The field is that of a named member, and its type is what that of the member was resolved
to. -/
structure FieldFrom (written : String × TypeExpr) (f : Field) : Prop where
  name : f.name = written.1
  mode : f.mode = .readWrite
  inline : f.inline = written.2.isDefinition
  resolved : ∃ owner location t t',
    (resolve ⟨some written.1, owner, location, .member⟩ written.2).run t = (.ok f.type, t')

section
variable {owner : Option String} {t t' : Translator} {ms : List Member} {fs : List Field}

theorem Fills.follows (h : Fills owner t ms fs t') :
    List.Forall₂ FieldFrom (resultingFields ms) fs := by
  induction h with
  | nil => exact .nil
  | ignored _ ih => exact ih
  | named resolved _ ih => exact .cons ⟨rfl, rfl, rfl, _, _, _, _, resolved⟩ ih
  | spliced _ _ _ _ ihown ihrest => exact List.rel_append ihown ihrest
  | nested tagged _ _ ih =>
    rw [resultingFields_alone (.container tagged)]
    exact ih
  | nestedEnum _ _ ih => exact ih
  | skipped container enumeration _ ih =>
    rw [resultingFields_passed (.unnamed container enumeration)]
    exact ih

end

/-! ## What the walk reads -/

theorem setFields_ok {h : Handle} {fs : List Field} {location : Option Location} {t t' : Translator}
    (hrun : (setFields h fs location).run t = (.ok ⟨⟩, t')) : ∃ kind c,
      t'.graph.get? h = some (.container kind c) ∧ c.fields = fs := by
  obtain ⟨g, hg, rfl⟩ := tryGraph_ensures ⟨⟩ t' hrun
  obtain ⟨kind, c, hn, rfl⟩ := Graph.modifyContainer_ok hg
  exact ⟨kind, _, Graph.get?_set_self hn _, rfl⟩

theorem labelOf_run (h : Handle) (t : Translator) :
    ∃ label, (labelOf h).run t = (.ok label, t) := by
  unfold labelOf
  rw [run_get]
  split
  · exact ⟨_, rfl⟩
  · exact ⟨_, rfl⟩

def MembersFill (owner : Option String) (label : String) (ms : List Member) : Prop :=
  ∀ t fs t', (members owner label ms).run t = (.ok fs, t') → Fills owner t ms fs t'

def BodyFills (kind : ContainerKind) (invented : Option String) (spec : ContainerSpec) : Prop :=
  ∀ t h t' ms, spec.members = some ms → (container kind invented spec).run t = (.ok h, t') →
    ∃ fs, BodyRead kind spec.tag invented ms spec.location t h fs t'

theorem walks_fill : (∀ kind invented spec, BodyFills kind invented spec) ∧
    ∀ owner label ms, MembersFill owner label ms := by
  refine (induct (T := fun _ _ => True) (F := fun _ _ _ => True) (A := fun _ _ _ => True)
    (C := BodyFills) (M := MembersFill) ?_ ?_ ?_ ?_ ?_ ?reference ?body ?_ ?_ ?_ ?noMember ?passed
    ?named ?spliced ?alone).2.2.2
  case reference =>
    intro kind invented tag location t h t' ms hms
    cases hms
  case body =>
    intro kind invented tag ms location ih t h t' _ hms hrun
    cases hms
    unfold container at hrun
    obtain ⟨h, t₁, hopen, hrun⟩ := run_bind_ok hrun
    obtain ⟨owner, _, howner, hrun⟩ := run_bind_ok hrun
    cases howner
    obtain ⟨label, hlabel⟩ := labelOf_run h t₁
    obtain ⟨_, _, hlabel', hrun⟩ := run_bind_ok hrun
    cases hlabel.symm.trans hlabel'
    obtain ⟨fs, t₂, hms, hrun⟩ := run_bind_ok hrun
    obtain ⟨_, t₃, hset, hrun⟩ := run_bind_ok hrun
    cases hrun
    exact ⟨fs, t₁, t₂, hopen, ih _ _ _ _ _ hms, hset⟩
  case noMember =>
    intro owner label t fs t' hrun
    unfold members at hrun
    cases hrun
    exact .nil owner t
  case passed =>
    intro owner label m ms hm ih t fs t' hrun
    rw [members_passed hm] at hrun
    cases hm with
    | ignored what => exact .ignored (ih t fs t' hrun)
    | unnamed hc he => exact .skipped hc he (ih t fs t' hrun)
  case named =>
    intro owner label name type location ms _ ih t fs t' hrun
    unfold members at hrun
    obtain ⟨h, t₁, hresolve, hrun⟩ := run_bind_ok hrun
    obtain ⟨gs, t₂, hms, hrun⟩ := run_bind_ok hrun
    cases hrun
    have hresolve := Ensures.adapt (fun _ _ => id) _ h t₁ hresolve
    exact .named hresolve (ih t₁ gs _ hms)
  case spliced =>
    intro owner label kind inner place location ms ihc ih t fs t' hrun
    unfold members at hrun
    obtain ⟨h, t₃, hcontainer, hrun⟩ := run_bind_ok hrun
    obtain ⟨fs, t₁, t₂, hopen, hown, hclosed⟩ := ihc t h t₃ inner rfl hcontainer
    obtain ⟨kind', c, hc, rfl⟩ := setFields_ok hclosed
    obtain ⟨spliced, t₃, hspliced, hrun⟩ := run_bind_ok hrun
    obtain ⟨rfl, rfl⟩ := fieldsOf_ensures hc _ _ hspliced
    obtain ⟨gs, t₄, hms, hrun⟩ := run_bind_ok hrun
    cases hrun
    exact .spliced hopen hown hclosed (ih _ gs _ hms)
  case alone =>
    intro owner label type location ms halone _ ih t fs t' hrun
    rw [members_alone halone] at hrun
    obtain ⟨h, t₁, hresolve, hrest⟩ := run_bind_ok hrun
    cases halone with
    | container hne => exact .nested hne hresolve (ih t₁ fs t' hrest)
    | enumeration spec => exact .nestedEnum hresolve (ih t₁ fs t' hrest)
  all_goals intros; trivial

/-! ## What the types denote -/

/-- The types of fields read back from the graph as they were written. -/
def TypesRead (typedefs : Table String Handle) (g : Graph) (written : List (String × TypeExpr))
    (fs : List Field) : Prop :=
  List.Forall₂ (fun w f => Denotes typedefs g w.2 f.type) written fs

section
variable {typedefs : Table String Handle} {g g' : Graph} {written : List (String × TypeExpr)}
  {fs : List Field}

theorem TypesRead.grow (h : TypesRead typedefs g written fs) (hg : g.Grows g') :
    TypesRead typedefs g' written fs :=
  List.Forall₂.imp (fun _ _ hd => hd.grow hg) h

theorem TypesRead.lt (h : TypesRead typedefs g written fs) : ∀ f ∈ fs, f.type.index < g.size := by
  induction h with
  | nil => exact fun _ hf => nomatch hf
  | cons hd _ ih => exact List.forall_mem_cons.mpr ⟨hd.lt, ih⟩

end

theorem Fills.typesRead {owner : Option String} {t t' : Translator} {ms : List Member}
    {fs : List Field} (h : Fills owner t ms fs t') (s : t.Sound) :
    t'.Sound ∧ t.Extends t' ∧ t.Within t' ∧
      TypesRead t.typedefs t'.graph (resultingFields ms) fs := by
  induction h with
  | nil owner t => exact ⟨s, .refl t, .refl t, .nil⟩
  | ignored _ ih => exact ih s
  | named resolved _ ih =>
    obtain ⟨s₁, e₁, hw₁, hd⟩ := (resolve_leads s _ _).ok resolved
    obtain ⟨s', e', hw', hrest⟩ := ih s₁
    exact ⟨s', e₁.trans e', hw₁.trans hw', .cons (hd.grow e'.graph) (hw₁.typedefs ▸ hrest)⟩
  | spliced opened _ closed _ ihown ihrest =>
    obtain ⟨s₁, e₁, hw₁, c, hn, _⟩ := (containerNode_leads s _ _ _ _).ok opened
    obtain ⟨s₂, e₂, hw₂, hown⟩ := ihown s₁
    obtain ⟨c₂, hn₂, _⟩ := e₂.graph.container hn
    obtain ⟨s₃, e₃, hw₃, _⟩ := (setFields_leads s₂ hn₂ hown.lt _).ok closed
    obtain ⟨s', e', hw', hrest⟩ := ihrest s₃
    have hown := (hw₁.typedefs ▸ hown).grow (e₃.trans e').graph
    have hrest := ((hw₁.trans hw₂).trans hw₃).typedefs ▸ hrest
    exact ⟨s', ((e₁.trans e₂).trans e₃).trans e', ((hw₁.trans hw₂).trans hw₃).trans hw',
      List.rel_append hown hrest⟩
  | nested tagged resolved _ ih =>
    obtain ⟨s₁, e₁, hw₁, _⟩ := (resolve_leads s _ _).ok resolved
    obtain ⟨s', e', hw', hrest⟩ := ih s₁
    rw [resultingFields_alone (.container tagged)]
    exact ⟨s', e₁.trans e', hw₁.trans hw', hw₁.typedefs ▸ hrest⟩
  | nestedEnum resolved _ ih =>
    obtain ⟨s₁, e₁, hw₁, _⟩ := (resolve_leads s _ _).ok resolved
    obtain ⟨s', e', hw', hrest⟩ := ih s₁
    exact ⟨s', e₁.trans e', hw₁.trans hw', hw₁.typedefs ▸ hrest⟩
  | skipped container enumeration _ ih =>
    rw [resultingFields_passed (.unnamed container enumeration)]
    exact ih s

theorem BodyRead.typesRead {kind : ContainerKind} {tag invented : Option String} {ms : List Member}
    {location : Option Location} {t t' : Translator} {h : Handle} {fs : List Field}
    (hread : BodyRead kind tag invented ms location t h fs t') (s : t.Sound) :
    TypesRead t.typedefs t'.graph (resultingFields ms) fs := by
  obtain ⟨t₁, t₂, opened, own, closed⟩ := hread
  obtain ⟨s₁, e₁, hw₁, c, hn, _⟩ := (containerNode_leads s _ _ _ _).ok opened
  obtain ⟨s₂, e₂, _, hown⟩ := own.typesRead s₁
  obtain ⟨c₂, hn₂, _⟩ := e₂.graph.container hn
  obtain ⟨_, e₃, _⟩ := (setFields_leads s₂ hn₂ hown.lt _).ok closed
  exact (hw₁.typedefs ▸ hown).grow e₃.graph

/-- A body that is read gives its node, in the order of the source, the field of each named
member, with the fields of each unnamed body without a tag in the place of that body. -/
theorem Walk.container_fields {kind : ContainerKind} {tag invented : Option String}
    {ms : List Member} {location : Option Location} {t t' : Translator} {h : Handle}
    (hrun : (container kind invented ⟨tag, some ms, location⟩).run t = (.ok h, t')) :
    ∃ c, t'.graph.container? h = some c ∧
      BodyRead kind tag invented ms location t h c.fields t' ∧
      List.Forall₂ FieldFrom (resultingFields ms) c.fields ∧
      (t.Sound → TypesRead t.typedefs t'.graph (resultingFields ms) c.fields) := by
  obtain ⟨fs, hread⟩ := walks_fill.1 kind invented _ t h t' ms rfl hrun
  have hfields := hread
  obtain ⟨t₁, t₂, _, own, closed⟩ := hfields
  obtain ⟨kind', c, hc, rfl⟩ := setFields_ok closed
  refine ⟨c, ?_, hread, own.follows, hread.typesRead⟩
  simp [Graph.container?, hc, Node.container?]

namespace Sample

/-- `union { int low; struct { int high; }; }; enum E { }; struct S *next; struct { } last;`,
where the struct `S` is the one that has these members. -/
def overlaid : List Member := [
  .declaration (.unnamed (.container .union (.body none [.named "low" (.word "int"),
    .unnamed (.container .struct (.body none [.named "high" (.word "int")]))]))),
  .declaration (.unnamed (.enumeration (.body (some "E") []))),
  .declaration (.named "next" (.pointer (.container .struct (.reference "S")))),
  .declaration (.named "last" (.container .struct (.body none [])))]

end Sample

theorem container_fields_overlaid : ∃ t',
    (container .struct none ⟨some "S", some Sample.overlaid, none⟩).run .start = (.ok ⟨0⟩, t') ∧
      ∃ c, t'.graph.container? ⟨0⟩ = some c ∧
        BodyRead .struct (some "S") none Sample.overlaid none .start ⟨0⟩ c.fields t' ∧
        List.Forall₂ FieldFrom (resultingFields Sample.overlaid) c.fields ∧
        (Translator.start.Sound → TypesRead Translator.start.typedefs t'.graph
          (resultingFields Sample.overlaid) c.fields) := by
  let w := container .struct none ⟨some "S", some Sample.overlaid, none⟩
  have hok : (w.run .start).1.toOption = some ⟨0⟩ := by decide +kernel
  cases hrun : w.run .start with
  | mk r t' =>
    rw [hrun] at hok
    cases r with
    | error e => cases hok
    | ok h =>
      cases hok
      exact ⟨t', rfl, Walk.container_fields hrun⟩

example : (resultingFields Sample.overlaid).map (·.1) = ["low", "high", "next", "last"] := rfl

end CythonDecls
