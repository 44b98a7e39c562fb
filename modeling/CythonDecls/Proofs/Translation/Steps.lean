import CythonDecls.Proofs.Translation.Denotes

/-!
# The steps of a walk

What the steps of a walk do to a translator. A step that finds or makes a node,
makes up a tag or reads the words of a type has a relation of its own, with one
constructor for each thing that it can do; what a property of walks says about
such a step is read off from there. The node of a tag is found or made alike
for structs, unions and enums, so one relation has them all.
-/

namespace CythonDecls

/-! ## Tags and their nodes -/

def Node.key? : Node → Option (Option ContainerKind × String)
  | .container kind c => c.tag.map (some kind, ·)
  | .enumeration e => e.tag.map (none, ·)
  | _ => none

/-- A struct or union, or else an enum, that has no body so far. -/
def Node.blank : Option ContainerKind → Option String → Option Location → Node
  | some kind, tag, location => .container kind ⟨tag, [], location⟩
  | none, tag, location => .enumeration ⟨tag, [], location⟩

namespace Node

theorem container_of_key? {n : Node} {kind : ContainerKind} {tag : String}
    (h : n.key? = some (some kind, tag)) : ∃ c, n = .container kind c ∧ c.tag = some tag := by
  cases n <;> simp_all [key?]

theorem enumeration_of_key? {n : Node} {tag : String} (h : n.key? = some (none, tag)) :
    ∃ e, n = .enumeration e ∧ e.tag = some tag := by
  cases n <;> simp_all [key?]

section
variable (sort : Option ContainerKind) (tag : Option String) (location : Option Location)

@[simp] theorem tag?_blank : (blank sort tag location).tag? = tag := by
  cases sort <;> rfl

@[simp] theorem key?_blank : (blank sort tag location).key? = tag.map (sort, ·) := by
  cases sort <;> rfl

@[simp] theorem children_blank : (blank sort tag location).children = [] := by
  cases sort <;> rfl

@[simp] theorem typedef?_blank : (blank sort tag location).typedef? = none := by
  cases sort <;> rfl

@[simp] theorem isAggregate_blank : (blank sort tag location).isAggregate = true := by
  cases sort <;> rfl

@[simp] theorem hasBody_blank : (blank sort tag location).hasBody = false := by
  cases sort <;> rfl

end

end Node

namespace Translator

def lookup (t : Translator) : Option ContainerKind × String → Option Handle
  | (some kind, tag) => (t.containers kind).find? tag
  | (none, tag) => t.enums.find? tag

def enter (t : Translator) : Option ContainerKind × String → Handle → Translator
  | (some kind, tag), h => t.enterContainer kind tag h
  | (none, tag), h => { t with enums := t.enums.insert tag h }

section
variable {t t' : Translator} {h : Handle}

theorem lookup_congr (hs : t'.structs = t.structs) (hu : t'.unions = t.unions)
    (he : t'.enums = t.enums) : t'.lookup = t.lookup := by
  funext ⟨sort, tag⟩
  rcases sort with _ | _ | _ <;> simp [lookup, containers, hs, hu, he]

@[simp] theorem lookup_withGraph (g : Graph) : lookup { t with graph := g } = t.lookup :=
  lookup_congr rfl rfl rfl

section
variable (key : Option ContainerKind × String)

@[simp] theorem graph_enter : (t.enter key h).graph = t.graph := by
  rcases key with ⟨_ | _ | _, _⟩ <;> rfl

@[simp] theorem typedefs_enter : (t.enter key h).typedefs = t.typedefs := by
  rcases key with ⟨_ | _ | _, _⟩ <;> rfl

@[simp] theorem functions_enter : (t.enter key h).functions = t.functions := by
  rcases key with ⟨_ | _ | _, _⟩ <;> rfl

@[simp] theorem invented_enter : (t.enter key h).invented = t.invented := by
  rcases key with ⟨_ | _ | _, _⟩ <;> rfl

@[simp] theorem hoisted_enter : (t.enter key h).hoisted = t.hoisted := by
  rcases key with ⟨_ | _ | _, _⟩ <;> rfl

theorem lookup_enter (k : Option ContainerKind × String) :
    (t.enter key h).lookup k = if k = key then some h else t.lookup k := by
  obtain ⟨sort, tag⟩ := key
  obtain ⟨sort', tag'⟩ := k
  rcases sort with _ | _ | _ <;> rcases sort' with _ | _ | _ <;>
    simp [enter, enterContainer, lookup, containers, Table.find?_insert]

end

end

/-! ## What a step can do -/

section
variable (t : Translator)

/-- Without a tag to find it under, a definition has a new node. A mention or a definition of a
tag has the node of the tag, which is new if there was none. -/
inductive Opens (sort : Option ContainerKind) (location : Option Location) :
    Option String → Option String → Handle → Translator → Prop where
  | untagged (invented : Option String) : Opens sort location none invented t.graph.next
      { t with graph := t.graph.add (.blank sort invented location) }
  | known (invented : Option String) {tag : String} {h : Handle}
      (hk : t.lookup (sort, tag) = some h) : Opens sort location (some tag) invented h t
  | entered (invented : Option String) {tag : String} (hk : t.lookup (sort, tag) = none) :
      Opens sort location (some tag) invented t.graph.next
        (enter { t with graph := t.graph.add (.blank sort (some tag) location) } (sort, tag)
          t.graph.next)

/-- A tag is made up for a nested definition that has none, where there is a name to make it
from. -/
inductive Invents (isAnonymous : Bool) (site : Site) : Option String → Translator → Prop where
  | nothing (h : isAnonymous = true → site.position = .nested → site.name = none) :
      Invents isAnonymous site none t
  | tag {base : String} (hb : site.baseTag = some base) (ha : isAnonymous = true)
      (hp : site.position = .nested) : Invents isAnonymous site (some (t.freeTag base))
        { t with invented := t.freeTag base :: t.invented }

/-- The words of a type name a typedef, or else they spell a fundamental type, of which there is
one node. -/
inductive Reads (words : List String) : Handle → Translator → Prop where
  | typedef {h : Handle} (hk : namedTypedef? t.typedefs words = some h) : Reads words h t
  | known {h : Handle} (hk : namedTypedef? t.typedefs words = none)
      (hs : Specifier.isSequence words)
      (hf : t.graph.fundamentals.find? (Specifier.canonicalKey words) = some h) : Reads words h t
  | new (hk : namedTypedef? t.typedefs words = none) (hs : Specifier.isSequence words)
      (hf : t.graph.fundamentals.find? (Specifier.canonicalKey words) = none) :
      Reads words t.graph.next { t with
        graph := { t.graph.add (.fundamental (.ofKey (Specifier.canonicalKey words))) with
          fundamentals := t.graph.fundamentals.insert (Specifier.canonicalKey words)
            t.graph.next } }

/-- The node is hoisted under the condition `c`. -/
inductive Hoists (c : Prop) (h : Handle) : Handle → Translator → Prop where
  | intro {hs : List Handle} (hmem : ∀ k, k ∈ hs ↔ k ∈ t.hoisted ∨ c ∧ k = h) :
      Hoists c h h { t with hoisted := hs }

end

end Translator

namespace Walk

open Translator

/-! ## Runs -/

theorem run_bind {α β : Type} (w : Walk α) (f : α → Walk β) (t : Translator) :
    (w >>= f).run t = match w.run t with
      | (.ok a, t₁) => (f a).run t₁
      | (.error err, t₁) => (.error err, t₁) := by
  show ExceptT.bindCont f (w.run t).1 (w.run t).2 = _
  cases w.run t with
  | mk r t₁ => cases r <;> rfl

theorem run_get {α : Type} (f : Translator → Walk α) (t : Translator) :
    (MonadState.get >>= f).run t = (f t).run t := rfl

theorem run_bind_ok {α β : Type} {w : Walk α} {f : α → Walk β} {t t' : Translator} {b : β}
    (h : (w >>= f).run t = (.ok b, t')) :
    ∃ a t₁, w.run t = (.ok a, t₁) ∧ (f a).run t₁ = (.ok b, t') := by
  rw [run_bind] at h
  cases hw : w.run t with
  | mk r t₁ =>
    rw [hw] at h
    cases r with
    | error e => cases h
    | ok a => exact ⟨a, t₁, rfl, h⟩

theorem run_bind_of_ok {α β : Type} {w : Walk α} {t t₁ : Translator} {a : α}
    (h : w.run t = (.ok a, t₁)) (f : α → Walk β) : (w >>= f).run t = (f a).run t₁ := by
  rw [run_bind, h]

theorem run_named {α : Type} {t : Translator} {h : Handle} {kind : ContainerKind} {c : Container}
    (hn : t.graph.get? h = some (.container kind c)) (f : Option String → String → Walk α) :
    (do
      let owner ← tagOf h
      let label ← labelOf h
      f owner label).run t = (f c.tag (c.tag.getD s!"<anonymous {kind.keyword}>")).run t := by
  have htag : (tagOf h).run t = (.ok c.tag, t) := by
    show (Except.ok (t.graph.get? h >>= Node.tag?), t) = _
    rw [hn]
    rfl
  have hlabel : (labelOf h).run t = (.ok (c.tag.getD s!"<anonymous {kind.keyword}>"), t) := by
    unfold labelOf
    rw [run_get, hn]
    rfl
  rw [run_bind_of_ok htag, run_bind_of_ok hlabel]

/-- The walk from `t` has a result, and it satisfies `Q`. -/
def Gives {α : Type} (t : Translator) (w : Walk α) (Q : α → Translator → Prop) : Prop :=
  ∃ a t', w.run t = (.ok a, t') ∧ Q a t'

section
variable {t : Translator}

/-- The node of a definition: of a struct or union, or else of an enum. -/
def openNode (sort : Option ContainerKind) (tag invented : Option String)
    (location : Option Location) : Walk Handle :=
  match sort with
  | some kind => containerNode kind tag invented location
  | none => enumNode tag invented location

theorem openNode_known (sort : Option ContainerKind) {tag : String} {h : Handle}
    (hk : t.lookup (sort, tag) = some h) (invented : Option String) (location : Option Location) :
    (openNode sort (some tag) invented location).run t = (.ok h, t) := by
  cases sort with
  | none =>
    unfold openNode enumNode
    rw [run_get, show t.enums.find? tag = some h from hk]
    rfl
  | some kind =>
    unfold openNode containerNode
    rw [run_get, show (t.containers kind).find? tag = some h from hk]
    rfl

theorem openNode_new (sort : Option ContainerKind) {tag : String}
    (hk : t.lookup (sort, tag) = none) (invented : Option String) (location : Option Location) :
    (openNode sort (some tag) invented location).run t = (.ok t.graph.next,
      enter { t with graph := t.graph.add (.blank sort (some tag) location) } (sort, tag)
        t.graph.next) := by
  cases sort with
  | none =>
    unfold openNode enumNode
    rw [run_get, show t.enums.find? tag = none from hk]
    rfl
  | some kind =>
    unfold openNode containerNode
    rw [run_get, show (t.containers kind).find? tag = none from hk]
    rfl

theorem openNode_gives (sort : Option ContainerKind) (tag invented : Option String)
    (location : Option Location) :
    Gives t (openNode sort tag invented location) (t.Opens sort location tag invented) := by
  cases tag with
  | none => cases sort <;> exact ⟨_, _, rfl, .untagged invented⟩
  | some tag =>
    cases hk : t.lookup (sort, tag) with
    | some h => exact ⟨_, _, openNode_known sort hk invented location, .known invented hk⟩
    | none => exact ⟨_, _, openNode_new sort hk invented location, .entered invented hk⟩

theorem inventTag_gives (isAnonymous : Bool) (site : Site) :
    Gives t (inventTag isAnonymous site) (t.Invents isAnonymous site) := by
  unfold inventTag
  cases hb : site.baseTag with
  | none => exact ⟨_, _, rfl, .nothing fun _ _ => Option.map_eq_none_iff.mp hb⟩
  | some base =>
    by_cases hc : isAnonymous = true ∧ site.position = .nested
    · simp only [if_pos hc]
      exact ⟨_, _, rfl, .tag hb hc.1 hc.2⟩
    · simp only [if_neg hc]
      exact ⟨_, _, rfl, .nothing fun ha hp => absurd ⟨ha, hp⟩ hc⟩

theorem hoistIf_gives (c : Prop) [Decidable c] (h : Handle) :
    Gives t (do
      if c then hoist h
      return h) (t.Hoists c h) := by
  by_cases hc : c
  · simp only [hc, if_true]
    have hrun : (do hoist h; return h : Walk Handle).run t =
        (.ok h, if t.hoisted.contains h then t else { t with hoisted := t.hoisted ++ [h] }) := rfl
    refine ⟨_, _, hrun, ?_⟩
    split
    · rename_i hmem
      rw [List.contains_iff_mem] at hmem
      exact .intro fun k => ⟨.inl, fun hk => hk.elim id fun hk => hk.2 ▸ hmem⟩
    · exact .intro fun k => by simp
  · simp only [hc, if_false]
    exact ⟨_, _, rfl, .intro fun k => by simp⟩

/-- A typedef's name comes before the words of a fundamental type. -/
theorem identifier_eq (words : List String) (location : Option Location) :
    identifier words location = (get >>= fun t => (namedTypedef? t.typedefs words).elim
      (if Specifier.isSequence words then do
        set { t with graph := (t.graph.fundamental words).2 }
        return (t.graph.fundamental words).1
      else throw (.unknownType (" ".intercalate words) location)) pure) := by
  unfold identifier
  congr 1
  funext t
  rcases words with _ | ⟨name, _ | ⟨word, words⟩⟩
  · rfl
  · show _ = (t.typedefs.find? name).elim _ pure
    cases hf : t.typedefs.find? name with
    | none => simp only [hf]; rfl
    | some h => simp only [hf]; rfl
  · rfl

theorem identifier_cases (words : List String) (location : Option Location) :
    Gives t (identifier words location) (t.Reads words) ∨
      (namedTypedef? t.typedefs words = none ∧ Specifier.isSequence words = false) ∧
        (identifier words location).run t =
          (.error (.unknownType (" ".intercalate words) location), t) := by
  rw [identifier_eq]
  unfold Gives
  rw [run_get]
  cases hk : namedTypedef? t.typedefs words with
  | some h => exact .inl ⟨_, _, rfl, .typedef hk⟩
  | none =>
    simp only [Option.elim_none]
    cases hs : Specifier.isSequence words with
    | false => exact .inr ⟨by simp, rfl⟩
    | true =>
      cases hf : t.graph.fundamentals.find? (Specifier.canonicalKey words) with
      | some h =>
        rw [Graph.fundamental_known hf]
        exact .inl ⟨_, _, rfl, .known hk hs hf⟩
      | none =>
        rw [Graph.fundamental_new hf]
        exact .inl ⟨_, _, rfl, .new hk hs hf⟩

end

end Walk

end CythonDecls
