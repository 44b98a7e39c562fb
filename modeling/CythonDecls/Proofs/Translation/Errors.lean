import CythonDecls.Proofs.Translation.ItemWalks
import CythonDecls.Proofs.Translation.Obstacles

/-!
# Errors of a translation

A translation fails at the first obstacle of the tree and at nothing else. The
operations on the graph never fail: a body is written to a struct or union, and
the target of a typedef is set once, right after the name was new. An unknown
type is reported with the innermost named member around it, and as it is where
there is none.
-/

namespace CythonDecls

open Translator

/-- A label is absent where a tag is, and spells it otherwise. -/
def Tagged (label : Option Label) (tag : Option String) : Prop := Option.Rel Label.Spells label tag

theorem tagged_written (tag : String) : Tagged (some (.written tag)) (some tag) := .some rfl

/-- A spot is where a site is. -/
structure Spot.Fits (spot : Spot) (site : Site) : Prop where
  name : site.name = spot.name
  owner : Tagged spot.owner site.owner
  location : site.location = spot.location
  position : site.position = spot.position

theorem fits_unowned (name : Option String) (location : Option Location) (position : Position) :
    Spot.Fits ⟨name, none, location, position⟩ ⟨name, none, location, position⟩ :=
  ⟨rfl, .none, rfl, rfl⟩

theorem Spot.Fits.inside {spot : Spot} {site : Site} (h : spot.Fits site) :
    spot.inside.Fits site.inside := ⟨h.name, h.owner, h.location, rfl⟩

/-- An obstacle is reported by this error. The body that is named is still in the graph. -/
def Obstacle.Reported (o : Obstacle) (t : Translator) (e : TranslateError) : Prop :=
  match o.cause, o.within with
  | .enumerator name source, _ => e = .constant name source
  | .words words location, [] => e = .unknownType (" ".intercalate words) location
  | .words words location, m :: _ =>
    ∃ h c, t.graph.get? h = some (.container m.kind c) ∧ Tagged m.tag c.tag ∧
      e = .malformed (c.tag.getD s!"<anonymous {m.kind.keyword}>") m.member
        (.unknownType (" ".intercalate words) location)

theorem Obstacle.Reported.enclose {o : Obstacle} {t : Translator} {e : TranslateError}
    (hr : o.Reported t e) {m : Enclosure} {h : Handle} {c : Container}
    (hc : t.graph.get? h = some (.container m.kind c)) (ht : Tagged m.tag c.tag) :
    (o.enclose m).Reported t
      (e.inMember (c.tag.getD s!"<anonymous {m.kind.keyword}>") m.member) := by
  obtain ⟨cause, within⟩ := o
  cases cause with
  | enumerator name source =>
    cases hr
    cases within <;> rfl
  | words words location =>
    cases within with
    | nil =>
      cases hr
      exact ⟨h, c, hc, ht, rfl⟩
    | cons m' rest =>
      obtain ⟨h', c', hc', ht', he⟩ := hr
      subst he
      exact ⟨h', c', hc', ht', rfl⟩

namespace Translator

/-- From `t` to `t'`, nothing is declared and no typedef changes. -/
structure Steady (t t' : Translator) : Prop where
  typedefs : t'.typedefs = t.typedefs
  functions : t'.functions = t.functions
  nodes : ∀ h d, t.graph.get? h = some (.typedef d) → t'.graph.get? h = some (.typedef d)

theorem Steady.refl (t : Translator) : Steady t t := ⟨rfl, rfl, fun _ _ => id⟩

section
variable {t t₁ t₂ : Translator}

theorem Steady.trans (h₁ : Steady t t₁) (h₂ : Steady t₁ t₂) : Steady t t₂ :=
  ⟨h₂.typedefs.trans h₁.typedefs, h₂.functions.trans h₁.functions,
    fun h d hd => h₂.nodes h d (h₁.nodes h d hd)⟩

theorem steady_add (n : Node) : Steady t { t with graph := t.graph.add n } :=
  ⟨rfl, rfl, fun _ _ hd => Graph.get?_add_of_some hd n⟩

theorem steady_set {h : Handle} {m : Node} (hm : t.graph.get? h = some m)
    (hne : ∀ d, m ≠ .typedef d)
    (n : Node) : Steady t { t with graph := t.graph.set h n } := by
  refine ⟨rfl, rfl, fun k d hd => ?_⟩
  have hk : k ≠ h := by
    intro hk
    rw [hk, hm] at hd
    exact hne d (Option.some.inj hd)
  exact (Graph.get?_set_ne _ hk n).trans hd

theorem Invents.steady {isAnonymous : Bool} {site : Site} {invented : Option String}
    (i : t.Invents isAnonymous site invented t₁) : t.Steady t₁ := by
  cases i <;> exact ⟨rfl, rfl, fun _ _ => id⟩

theorem Reads.steady {words : List String} {h : Handle} (r : t.Reads words h t₁) :
    t.Steady t₁ := by
  cases r with
  | typedef => exact .refl t
  | known => exact .refl t
  | new => exact ⟨rfl, rfl, (t.steady_add _).nodes⟩

theorem Opens.steady {sort : Option ContainerKind} {location : Option Location}
    {tag invented : Option String} {h : Handle} (o : t.Opens sort location tag invented h t₁) :
    t.Steady t₁ := by
  cases o with
  | untagged => exact t.steady_add _
  | known => exact .refl t
  | entered =>
    refine ⟨by simp, by simp, ?_⟩
    rw [graph_enter]
    exact (t.steady_add _).nodes

theorem Hoists.steady {c : Prop} {h k : Handle} (o : t.Hoists c h k t₁) : t.Steady t₁ := by
  cases o
  exact ⟨rfl, rfl, fun _ _ => id⟩

def Names (t : Translator) (typedefs : List String) : Prop :=
  ∀ name, t.typedefs.contains name = typedefs.contains name

theorem Names.steady {typedefs : List String} (h : t.Names typedefs) (hs : t.Steady t₁) :
    t₁.Names typedefs := by
  intro name
  rw [hs.typedefs]
  exact h name

end

end Translator

/-- A result is the error of the first obstacle, and there is no error without obstacles. -/
def Outcome {α : Type} (os : List Obstacle) (t : Translator) (r : Except TranslateError α) : Prop :=
  match os with
  | [] => ∃ a, r = .ok a
  | o :: _ => ∃ e, r = .error e ∧ o.Reported t e

theorem Outcome.bind {α β : Type} {os ps : List Obstacle} {t : Translator}
    {x : Except TranslateError α} {f : α → Except TranslateError β} (hx : Outcome os t x)
    (hf : ∀ a, Outcome ps t (f a)) : Outcome (os ++ ps) t (x >>= f) := by
  cases os with
  | nil =>
    obtain ⟨a, ha⟩ := hx
    rw [ha]
    exact hf a
  | cons o os =>
    obtain ⟨err, herr, hrep⟩ := hx
    exact ⟨err, by rw [herr]; rfl, hrep⟩

namespace Walk

/-- A walk with an outcome either hands a result on, or it ends the walks behind it. -/
theorem outcome_cases {α β : Type} {os : List Obstacle} {t : Translator} {w : Walk α}
    (h : Outcome os (w.run t).2 (w.run t).1) (f : α → Walk β) :
    (os = [] ∧ ∃ a t₁, w.run t = (.ok a, t₁) ∧ (w >>= f).run t = (f a).run t₁) ∨
    (∃ o os', os = o :: os' ∧ ∃ e t₁, w.run t = (.error e, t₁) ∧
      (w >>= f).run t = (.error e, t₁) ∧ o.Reported t₁ e) := by
  have hbind := run_bind w f t
  cases hrun : w.run t with
  | mk r t₁ =>
    rw [hrun] at h hbind
    cases os with
    | nil =>
      obtain ⟨a, ha⟩ := h
      have ha : r = .ok a := ha
      subst ha
      exact .inl ⟨rfl, a, t₁, rfl, hbind⟩
    | cons o os =>
      obtain ⟨e, he, hrep⟩ := h
      have he : r = .error e := he
      subst he
      exact .inr ⟨o, os, rfl, e, t₁, rfl, hbind, hrep⟩

/-- The walk fails at the first of the obstacles, if there is one. -/
structure Meets {α : Type} (t : Translator) (w : Walk α) (os : List Obstacle) : Prop where
  steady : t.Steady (w.run t).2
  outcome : Outcome os (w.run t).2 (w.run t).1

section
variable {α β : Type} {t : Translator} {w : Walk α} {f : α → Walk β} {os ps : List Obstacle}
  {P : α → Translator → Prop}

theorem Meets.congr {v : Walk α} (h : w.run t = v.run t) (hv : Meets t v os) : Meets t w os := by
  obtain ⟨hs, hout⟩ := hv
  rw [← h] at hs hout
  exact ⟨hs, hout⟩

theorem Meets.of_run {a : α} {t' : Translator} (hrun : w.run t = (.ok a, t')) (hs : t.Steady t') :
    Meets t w [] := by
  constructor
  · rw [hrun]
    exact hs
  · exact ⟨a, by rw [hrun]⟩

theorem Meets.of_gives (h : Gives t w P) (hs : ∀ a t', P a t' → t.Steady t') : Meets t w [] := by
  obtain ⟨a, t', hrun, ha⟩ := h
  exact .of_run hrun (hs a t' ha)

theorem Meets.of_error {o : Obstacle} {e : TranslateError} (h : w.run t = (.error e, t))
    (ho : o.Reported t e) : Meets t w [o] := by
  constructor
  · rw [h]
    exact .refl t
  · exact ⟨e, by rw [h], by rwa [h]⟩

theorem Meets.pure (a : α) : Meets t (Pure.pure a) [] := .of_run rfl (.refl t)

theorem Meets.bind (hl : Leads t w P) (hw : Meets t w os)
    (hf : ∀ a t₁, w.run t = (.ok a, t₁) → t₁.Sound → t.Extends t₁ → P a t₁ → t.Steady t₁ →
      Meets t₁ (f a) ps) : Meets t (w >>= f) (os ++ ps) := by
  have hs := hw.steady
  obtain ⟨s, e, hp⟩ := hl
  obtain ⟨rfl, a, t₁, hrun, hbind⟩ | ⟨o, os', rfl, err, t₁, hrun, hbind, hrep⟩ :=
    outcome_cases hw.outcome f
  · rw [hrun] at hs s e hp
    obtain ⟨hs', hout'⟩ := hf a t₁ hrun s e (hp a rfl) hs
    rw [← hbind] at hs' hout'
    exact ⟨hs.trans hs', hout'⟩
  · rw [hrun] at hs
    constructor
    · rwa [hbind]
    · exact ⟨err, by rw [hbind], by rwa [hbind]⟩

theorem Meets.get {f : Translator → Walk β} (h : Meets t (f t) os) :
    Meets t (MonadState.get >>= f) os := ⟨h.steady, h.outcome⟩

/-- As `bind`, for a walk that comes last and meets nothing. -/
theorem Meets.then (hl : Leads t w P) (hw : Meets t w os)
    (hf : ∀ a t₁, w.run t = (.ok a, t₁) → t₁.Sound → t.Extends t₁ → P a t₁ → t.Steady t₁ →
      Meets t₁ (f a) []) : Meets t (w >>= f) os := by
  have h := Meets.bind hl hw hf
  rwa [List.append_nil] at h

/-- As `bind`, for a walk that comes first and meets nothing. -/
theorem Meets.after (hl : Leads t w P) (hw : Meets t w [])
    (hf : ∀ a t₁, w.run t = (.ok a, t₁) → t₁.Sound → t.Extends t₁ → P a t₁ → t.Steady t₁ →
      Meets t₁ (f a) ps) : Meets t (w >>= f) ps := Meets.bind hl hw hf

theorem Meets.enclose (hl : Leads t w P) (hw : Meets t w os) {m : Enclosure} {h : Handle}
    {c : Container} (hc : t.graph.get? h = some (.container m.kind c)) (ht : Tagged m.tag c.tag) :
    Meets t (ExceptT.adapt
        (·.inMember (c.tag.getD s!"<anonymous {m.kind.keyword}>") m.member) w)
      (os.map (Obstacle.enclose m)) := by
  obtain ⟨hs, hout⟩ := hw
  obtain ⟨_, e, _⟩ := hl
  let g : TranslateError → TranslateError :=
    (·.inMember (c.tag.getD s!"<anonymous {m.kind.keyword}>") m.member)
  have hrun : (ExceptT.adapt g w).run t = ((w.run t).1.mapError g, (w.run t).2) := rfl
  constructor
  · rw [hrun]
    exact hs
  · rw [hrun]
    cases os with
    | nil =>
      obtain ⟨a, ha⟩ := hout
      exact ⟨a, by rw [ha]; rfl⟩
    | cons o os =>
      obtain ⟨err, herr, hrep⟩ := hout
      obtain ⟨c', hc', htag⟩ := e.graph.container hc
      have hrep' := hrep.enclose hc' (htag ▸ ht)
      rw [htag] at hrep'
      exact ⟨_, by rw [herr]; rfl, hrep'⟩

end

/-! ## Single steps -/

section
variable {t : Translator}

theorem add_meets (n : Node) : Meets t (add n) [] := .of_run rfl (steady_add n)

theorem hoistIf_meets (c : Prop) [Decidable c] (h : Handle) :
    Meets t (do
      if c then hoist h
      return h) [] :=
  .of_gives (hoistIf_gives c h) fun _ _ => Hoists.steady

theorem tagged_of_invents {isAnonymous : Bool} {site : Site} {invented : Option String}
    {t' : Translator} (i : t.Invents isAnonymous site invented t') {spot : Spot}
    (hfit : spot.Fits site) : Tagged (spot.label? isAnonymous) invented := by
  cases i with
  | nothing h =>
    have hlabel : spot.label? isAnonymous = none := by
      by_cases hc : isAnonymous = true ∧ site.position = .nested
      · simp [Spot.label?, ← hfit.name, h hc.1 hc.2]
      · simp [Spot.label?, ← hfit.position, hc]
    rw [hlabel]
    exact .none
  | tag hb ha hp =>
    obtain ⟨name, hname, rfl⟩ := Option.map_eq_some_iff.mp hb
    have hpos : spot.position = .nested := hfit.position.symm.trans hp
    have howner := hfit.owner
    simp only [Spot.label?, ha, hpos, and_self, if_true, ← hfit.name, hname, Option.map_some]
    generalize spot.owner = label, site.owner = owner at howner ⊢
    cases howner with
    | none =>
      obtain ⟨n, hn, -⟩ := t.freeTag_first s!"__{name}"
      exact .some ⟨n, hn⟩
    | @some _ outer hspells =>
      obtain ⟨n, hn, -⟩ := t.freeTag_first s!"__{outer}_{name}"
      exact .some ⟨outer, n, hspells, hn⟩

theorem inventTag_meets (isAnonymous : Bool) (site : Site) :
    Meets t (inventTag isAnonymous site) [] ∧ ∀ invented t',
      (inventTag isAnonymous site).run t = (.ok invented, t') →
        ∀ spot : Spot, spot.Fits site → Tagged (spot.label? isAnonymous) invented := by
  have hg := inventTag_gives (t := t) isAnonymous site
  refine ⟨.of_gives hg fun _ _ => Invents.steady, fun invented t' hrun spot hfit => ?_⟩
  exact (Ensures.of_gives hg fun _ _ i => tagged_of_invents i hfit) invented t' hrun

theorem isResolvable_iff {typedefs : List String} (hn : t.Names typedefs) (words : List String) :
    isResolvable typedefs words =
      ((namedTypedef? t.typedefs words).isSome || Specifier.isSequence words) := by
  unfold isResolvable
  rcases words with _ | ⟨name, _ | ⟨word, words⟩⟩
  · rfl
  · have hname := hn name
    simp only [← hname]
    rfl
  · rfl

theorem identifier_meets {typedefs : List String} (hn : t.Names typedefs) (words : List String)
    (location : Option Location) :
    Meets t (identifier words location)
      (if isResolvable typedefs words then [] else [⟨.words words location, []⟩]) := by
  rw [isResolvable_iff hn]
  obtain hg | ⟨⟨hk, hs⟩, hrun⟩ := identifier_cases (t := t) words location
  · obtain ⟨h, t', hrun, r⟩ := hg
    rw [if_pos (by simpa using r.resolves)]
    exact .of_run hrun r.steady
  · simp only [hk, hs, Option.isSome_none, Bool.or_self, Bool.false_eq_true, if_false]
    exact .of_error hrun rfl

/-! ## Nodes of tags -/

theorem openNode_meets (sort : Option ContainerKind) (tag invented : Option String)
    (location : Option Location) : Meets t (openNode sort tag invented location) [] :=
  .of_gives (openNode_gives sort tag invented location) fun _ _ => Opens.steady

theorem containerNode_tag (s : t.Sound) {kind : ContainerKind} {tag invented : Option String}
    {location : Option Location} {h : Handle} {t' : Translator}
    (hrun : (containerNode kind tag invented location).run t = (.ok h, t')) {made : Option Label}
    (hm : Tagged made invented) : ∃ c, t'.graph.get? h = some (.container kind c) ∧
      Tagged ((tag.map Label.written).or made) c.tag := by
  have he := openNode_ensures s (some kind) tag invented location h t' hrun
  obtain ⟨_, _, _, c, hc, htag⟩ := (containerNode_leads s kind tag invented location).ok hrun
  refine ⟨c, hc, ?_⟩
  cases tag with
  | none =>
    rw [show c.tag = invented from he.2 _ hc rfl]
    exact hm
  | some tag =>
    rw [htag rfl]
    exact tagged_written tag

/-! ## Bodies of enums -/

theorem evaluate_outcome (e : Enumerator) (previous : Int64) :
    Outcome e.obstacles t (e.evaluate previous) := by
  unfold Enumerator.obstacles Enumerator.evaluate
  cases e.value with
  | none => exact ⟨_, rfl⟩
  | some expr =>
    cases hexpr : Constant.evaluateIntegral expr with
    | ok n =>
      simp only [hexpr]
      exact ⟨n, rfl⟩
    | error source =>
      simp only [hexpr]
      exact ⟨_, rfl, rfl⟩

theorem enumValuesFrom_outcome (es : List Enumerator) : ∀ previous,
    Outcome (es.flatMap Enumerator.obstacles) t (enumValuesFrom previous es) := by
  induction es with
  | nil => exact fun _ => ⟨[], rfl⟩
  | cons e es ih =>
    intro previous
    refine (evaluate_outcome e previous).bind fun value => ?_
    have h : Outcome (es.flatMap Enumerator.obstacles ++ []) t (do
        return EnumValue.mk e.name value :: (← enumValuesFrom value es)) :=
      (ih value).bind fun values => ⟨_, rfl⟩
    rwa [List.append_nil] at h

theorem enumValues_meets (es : List Enumerator) :
    Meets t (liftM (enumValues es) : Walk (List EnumValue)) (es.flatMap Enumerator.obstacles) := by
  have hout := enumValuesFrom_outcome (t := t) es (-1)
  have hrun : (liftM (enumValues es) : Walk (List EnumValue)).run t = (enumValues es, t) := by
    cases enumValues es <;> rfl
  constructor
  · rw [hrun]
    exact .refl t
  · rw [hrun]
    exact hout

theorem enumeration_meets (s : t.Sound) (spec : EnumSpec) (invented : Option String) :
    Meets t (enumeration spec invented) spec.obstacles := by
  obtain ⟨tag, es, location⟩ := spec
  unfold enumeration EnumSpec.obstacles
  refine .after (enumNode_leads s tag invented location)
    (openNode_meets none tag invented location) ?_
  intro h t₁ _ s₁ _ hq _
  obtain ⟨_, e, he, _⟩ := hq
  cases es with
  | none => exact .pure h
  | some es =>
    refine .then (enumValues_leads s₁ es) (enumValues_meets es) ?_
    intro values t₂ _ s₂ _ hq₂ _
    subst hq₂
    refine .after (setValues_leads s₂ he values location) ?_ fun _ _ _ _ _ _ _ => .pure h
    refine .of_run rfl ?_
    simp only [he]
    exact steady_set he (fun _ => by simp) _

end

/-! ## Types -/

def TypeMeets (site : Site) (ty : TypeExpr) : Prop :=
  ∀ t typedefs (spot : Spot), t.Sound → t.Names typedefs → spot.Fits site →
    Meets t (resolve site ty) (ty.obstacles typedefs spot)

/-- The members of a body are being read, and its node is known by the tag it has. -/
structure InBody (t : Translator) (typedefs : List String) (kind : ContainerKind)
    (tag : Option Label) (owner : Option String) (label : String) : Prop where
  names : t.Names typedefs
  node : ∃ h c, t.graph.get? h = some (.container kind c) ∧ Tagged tag c.tag ∧ owner = c.tag ∧
    label = c.tag.getD s!"<anonymous {kind.keyword}>"

theorem InBody.extend {t t₁ : Translator} {typedefs : List String} {kind : ContainerKind}
    {tag : Option Label} {owner : Option String} {label : String}
    (hb : InBody t typedefs kind tag owner label) (e : t.Extends t₁) (hs : t.Steady t₁) :
    InBody t₁ typedefs kind tag owner label := by
  obtain ⟨h, c, hc, ht, ho, hl⟩ := hb.node
  obtain ⟨c₁, hc₁, htag⟩ := e.graph.container hc
  exact ⟨hb.names.steady hs, h, c₁, hc₁, htag ▸ ht, ho.trans htag.symm, by rw [htag, hl]⟩

def MembersMeet (owner : Option String) (label : String) (ms : List Member) : Prop :=
  ∀ t typedefs kind tag, t.Sound → InBody t typedefs kind tag owner label →
    Meets t (members owner label ms) (obstaclesOfMembers typedefs kind tag ms)

theorem definition_meets {t : Translator} (s : t.Sound) {site : Site} {spot : Spot}
    (hfit : spot.Fits site) (ty : TypeExpr) (tag : Option String) {w : Option String → Walk Handle}
    {os : List Obstacle} (hl : ∀ invented t₁, t₁.Sound → Leads t₁ (w invented) (Resolved t₁ ty))
    (hw : ∀ invented t₁, t₁.Sound → t.Steady t₁ →
      Tagged (spot.label? (ty.isDefinition && tag.isNone)) invented → Meets t₁ (w invented) os) :
    Meets t (definition site ty tag w) os := by
  unfold definition
  obtain ⟨hm, htag⟩ := inventTag_meets (t := t) (ty.isDefinition && tag.isNone) site
  refine .after (inventTag_leads s _ site) hm ?_
  intro invented t₁ hrun s₁ _ _ hs
  refine .then (hl invented t₁ s₁) (hw invented t₁ s₁ hs (htag invented t₁ hrun spot hfit)) ?_
  intro h t₂ _ _ _ _ _
  exact hoistIf_meets _ h

theorem walks_meet :
    (∀ site ty, TypeMeets site ty) ∧
    (∀ name location sig t typedefs, t.Sound → t.Names typedefs →
      Meets t (function name location sig) (sig.obstacles typedefs name location)) ∧
    (∀ name here ds t typedefs, t.Sound → t.Names typedefs →
      Meets t (arguments name here ds) (obstaclesOfParams typedefs name here ds)) ∧
    (∀ kind invented spec t typedefs made, t.Sound → t.Names typedefs → Tagged made invented →
      Meets t (container kind invented spec) (spec.obstacles typedefs kind made)) ∧
    (∀ owner label ms, MembersMeet owner label ms) := by
  refine induct ?derived ?word ?container ?enumeration ?function ?reference ?body ?signature
    ?noArgument ?argument ?noMember ?passed ?named ?spliced ?alone
  case derived =>
    intro site d target ih t typedefs spot s hn hfit
    rw [resolve_indirection, Indirection.obstacles_type]
    refine .then (resolve_leads s site.inside target)
      (ih t typedefs spot.inside s hn hfit.inside) ?_
    intro k t₁ _ _ _ _ _
    exact add_meets _
  case word =>
    intro site words t typedefs spot s hn hfit
    unfold resolve
    rw [hfit.location]
    exact identifier_meets hn words spot.location
  case container =>
    intro site kind spec ih t typedefs spot s hn hfit
    rw [resolve_container]
    exact definition_meets s hfit (.container kind spec) spec.tag
      (fun invented t₁ s₁ => container_leads s₁ kind invented spec)
      fun invented t₁ s₁ hs => ih invented t₁ typedefs _ s₁ (hn.steady hs)
  case enumeration =>
    intro site spec t typedefs spot s hn hfit
    rw [resolve_enumeration]
    exact definition_meets s hfit (.enumeration spec) spec.tag
      (fun invented t₁ s₁ => enumeration_leads s₁ spec invented)
      fun invented t₁ s₁ _ _ => enumeration_meets s₁ spec invented
  case function =>
    intro site sig ih t typedefs spot s hn hfit
    unfold resolve TypeExpr.obstacles
    rw [← hfit.name, ← hfit.location]
    exact ih t typedefs s hn
  case reference =>
    intro kind invented tag location t typedefs made s hn hm
    unfold container
    exact openNode_meets (some kind) tag invented location
  case body =>
    intro kind invented tag ms location ih t typedefs made s hn hm
    unfold container
    refine .after (containerNode_leads s kind tag invented location)
      (openNode_meets (some kind) tag invented location) ?_
    intro h t₁ hrun s₁ _ _ hs
    obtain ⟨c, hc, htag⟩ := containerNode_tag s hrun hm
    -- what the members are read with comes from the node, which keeps its tag meanwhile
    refine .congr (run_named hc _) ?_
    refine .then (members_leads s₁ _ _ ms)
      (ih _ _ t₁ typedefs kind _ s₁ ⟨hn.steady hs, h, c, hc, htag, rfl, rfl⟩) ?_
    intro fields t₂ _ s₂ e₂ hq₂ _
    obtain ⟨c₂, hc₂, _⟩ := e₂.graph.container hc
    refine .after (setFields_leads s₂ hc₂ hq₂.2 location) ?_ fun _ _ _ _ _ _ _ => .pure h
    exact .of_run (setFields_run hc₂ fields location) (steady_set hc₂ (fun _ => by simp) _)
  case signature =>
    intro name location returns params variadic ihr iha t typedefs s hn
    unfold function
    refine .bind (resolve_leads s _ returns) (ihr t typedefs _ s hn (fits_unowned ..)) ?_
    intro r t₁ _ s₁ _ _ hs
    refine .then (arguments_leads s₁ name location params)
      (iha t₁ typedefs s₁ (hn.steady hs)) ?_
    intro args t₂ _ _ _ _ _
    exact add_meets _
  case noArgument =>
    intro name here t typedefs s hn
    unfold arguments
    exact .pure []
  case argument =>
    intro name here argument type location ds iht ihd t typedefs s hn
    unfold arguments
    have hfit : Spot.Fits ⟨argument <|> some name, argument.map fun _ => .written name,
        location <|> here, .nested⟩
        ⟨argument <|> some name, argument.map fun _ => name, location <|> here, .nested⟩ := by
      cases argument with
      | none => exact ⟨rfl, .none, rfl, rfl⟩
      | some _ => exact ⟨rfl, tagged_written name, rfl, rfl⟩
    refine .bind (resolve_leads s _ type) (iht t typedefs _ s hn hfit) ?_
    intro h t₁ _ s₁ _ _ hs
    refine .then (arguments_leads s₁ name here ds) (ihd t₁ typedefs s₁ (hn.steady hs)) ?_
    intro args t₂ _ _ _ _ _
    exact .pure _
  case noMember =>
    intro owner label t typedefs kind tag s hb
    unfold members
    exact .pure []
  case passed =>
    intro owner label m ms hm ih t typedefs kind tag s hb
    rw [members_passed hm, obstaclesOfMembers_passed hm]
    exact ih t typedefs kind tag s hb
  case named =>
    intro owner label name type location ms iht ihm t typedefs kind tag s hb
    unfold members
    obtain ⟨h, c, hc, ht, ho, hl⟩ := hb.node
    subst ho hl
    have hfit : Spot.Fits ⟨some name, tag, location, .member⟩
      ⟨some name, c.tag, location, .member⟩ :=
      ⟨rfl, ht, rfl, rfl⟩
    have hleads := resolve_leads s ⟨some name, c.tag, location, .member⟩ type
    have hmeets := (iht t typedefs _ s hb.names hfit).enclose (m := ⟨kind, tag, name⟩) hleads hc ht
    -- only here an error is wrapped, so members without a name pass on what is inside
    refine .bind (hleads.adapt _) hmeets ?_
    intro k t₁ _ s₁ e₁ _ hs
    refine .then (members_leads s₁ _ _ ms)
      (ihm t₁ typedefs kind tag s₁ (hb.extend e₁ hs)) ?_
    intro fields t₂ _ _ _ _ _
    exact .pure _
  case spliced =>
    intro owner label inner inside place location ms ihc ihm t typedefs kind tag s hb
    unfold members
    refine .bind (container_leads s inner none ⟨none, some inside, place⟩)
      (ihc t typedefs none s hb.names .none) ?_
    intro k t₁ _ s₁ e₁ _ hs
    have hb₁ := hb.extend e₁ hs
    have hfields : Meets t₁ (fieldsOf k) [] := by
      unfold fieldsOf
      apply Meets.get
      cases t₁.graph.container? k with
      | some c => exact .pure c.fields
      | none => exact .pure []
    refine .after (fieldsOf_leads s₁ k) hfields ?_
    intro spliced t₂ _ s₂ e₂ _ hs₂
    refine .then (members_leads s₂ _ _ ms)
      (ihm t₂ typedefs kind tag s₂ (hb₁.extend e₂ hs₂)) ?_
    intro fields t₃ _ _ _ _ _
    exact .pure _
  case alone =>
    intro owner label type location ms halone iht ihm t typedefs kind tag s hb
    rw [members_alone halone, obstaclesOfMembers_alone halone]
    refine .bind (resolve_leads s _ type) (iht t typedefs _ s hb.names (fits_unowned ..)) ?_
    intro _ t₁ _ s₁ e₁ _ hs
    exact ihm t₁ typedefs kind tag s₁ (hb.extend e₁ hs)

end Walk

end CythonDecls
