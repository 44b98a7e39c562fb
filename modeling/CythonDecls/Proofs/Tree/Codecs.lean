import CythonDecls.Tree.Decode
import CythonDecls.Proofs.Json.Codec

/-!
# Codecs of parse trees

Each part of a tree is read back from what is written for it. Expressions and
types hold smaller ones, so their codecs are by induction on how deep a reader
goes: one node is a codec one level deeper than the codec of what it holds.
-/

namespace CythonDecls

open Json

variable {n : Nat}

/-! ## Locations and expressions -/

theorem Location.codec : Codec ofJson? id toJson n :=
  have hrecord := Codec.record (n := n) (.field (.required "file" .string) fun file =>
    .field (.required "line" .uint32) fun line => .pure (Location.mk file line)) (by decide)
  (hrecord.total (fun ⟨file, line⟩ => ⟨(file, line, ()), rfl⟩) fun _ => rfl).mono (Nat.le_succ n)

theorem UnaryOp.codec : Codec (named? .inner ofSymbol?) id (fun op => text op.symbol) n :=
  .named fun op => by cases op <;> rfl

theorem BinaryOp.codec : Codec (named? .inner ofSymbol?) id (fun op => text op.symbol) n :=
  .named fun op => by cases op <;> rfl

theorem ConstExpr.codec_node {operand? : Json → Option ConstExpr} {nesting : Nesting}
    (he : Codec operand? id toJson n) : Codec (node? operand? nesting) id toJson (n + 1) := by
  have hliteral (kind : LiteralKind) := Codec.record (n := n) (.field (.required "text" .string)
    fun text => .pure (literal kind text)) (by decide)
  have hunary := Codec.record (.field (.required "op" UnaryOp.codec) fun op =>
    .field (.required "operand" he) fun e => .pure (unary op e)) (by decide)
  have hbinary := Codec.record (.field (.required "op" BinaryOp.codec) fun op =>
    .field (.required "lhs" he) fun l => .field (.required "rhs" he) fun r =>
      .pure (binary op l r)) (by decide)
  have hidentifier := Codec.record (n := n) (.field (.required "name" .string) fun name =>
    .pure (identifier name)) (by decide)
  have hunsupported := Codec.record (n := n) (.field (.required "text" .string) fun text =>
    .pure (unsupported text)) (by decide)
  apply Codec.tagged
  · intro e
    cases e with
    | literal kind text =>
      exact (hliteral kind).reads_kinded (by cases kind <;> decide)
        (fun _ => by cases kind <;> rfl) (text, ()) rfl (by simp)
    | unary op e => exact hunary.reads_kinded (by decide) (fun _ => rfl) (op, e, ()) rfl (by simp)
    | binary op l r =>
      exact hbinary.reads_kinded (by decide) (fun _ => rfl) (op, l, r, ()) rfl (by simp)
    | identifier name =>
      exact hidentifier.reads_kinded (by decide) (fun _ => rfl) (name, ()) rfl (by simp)
    | unsupported text =>
      exact hunsupported.reads_kinded (by decide) (fun _ => rfl) (text, ()) rfl (by simp)
  · intro kind w e h
    simp only at h
    split at h
    · exact hunary.shallow_kinded (fun _ => rfl) h
    · exact hbinary.shallow_kinded (fun _ => rfl) h
    · exact hidentifier.shallow_kinded (fun _ => rfl) h
    · exact hunsupported.shallow_kinded (fun _ => rfl) h
    · obtain ⟨kind, _, h⟩ := Option.bind_eq_some_iff.mp h
      exact (hliteral kind).shallow_kinded (fun _ => rfl) h

theorem ConstExpr.depth_pos (e : ConstExpr) : 0 < e.toJson.depth := by
  cases e <;> exact depth_record_pos

theorem ConstExpr.codec : ∀ n nesting, Codec (read? n nesting) id toJson n
  | 0, _ => .none depth_pos
  | n + 1, _ => codec_node (codec n .inner)

theorem Enumerator.codec (hn : n ≤ depthLimit) : Codec ofJson? id toJson (n + 1) :=
  have hvalue := (ConstExpr.codec depthLimit .inner).mono hn
  have hrecord := Codec.record (.field (.required "name" .string) fun name =>
    .field (.optional "value" hvalue fun e => by cases e <;> nofun) fun value =>
    .field (.optional "location" Location.codec nofun) fun location =>
    .pure (Enumerator.mk name value location)) (by decide)
  hrecord.total (fun ⟨name, value, location⟩ => ⟨(name, value, location, ()), rfl⟩) fun _ => rfl

theorem EnumSpec.codec (hn : n ≤ depthLimit) :
    Codec ofFields? id (fun s => .record s.fields) (n + 1) :=
  have henumerators := ((Enumerator.codec hn).mono (Nat.le_succ n)).list.mono (Nat.le_succ n)
  have hrecord := Codec.record (.field (.optional "name" .string nofun) fun tag =>
    .field (.optional "enumerators" henumerators nofun) fun enumerators =>
    .field (.optional "location" Location.codec nofun) fun location =>
    .pure (EnumSpec.mk tag enumerators location)) (by decide)
  hrecord.total (fun ⟨tag, enumerators, location⟩ => ⟨(tag, enumerators, location, ()), rfl⟩)
    fun _ => rfl

theorem EnumSpec.kind_not_mem (s : EnumSpec) : "kind" ∉ s.fields.map Prod.fst := by
  simp [fields]

/-! ## Types -/

def Ignored.fields (i : Ignored) : List (String × Json) :=
  [("name", .text i.name), ("location", ofOption Location.toJson i.location)]

theorem Ignored.codec : Codec ofFields? id (fun i => .record i.fields) (n + 1) :=
  have hrecord := Codec.record (.field (.required "name" .string) fun name =>
    .field (.optional "location" Location.codec nofun) fun location =>
    .pure (Ignored.mk name location)) (by decide)
  hrecord.total (fun ⟨name, location⟩ => ⟨(name, location, ()), rfl⟩) fun _ => rfl

theorem Ignored.kind_not_mem (i : Ignored) : "kind" ∉ i.fields.map Prod.fst := by
  simp [fields]

def Member.toJson : Member → Json
  | .declaration d => .kinded "Declaration" d.fields
  | .ignored i => i.toJson

theorem membersToJson_eq (ms : List Member) : membersToJson ms = ms.map Member.toJson := by
  induction ms with
  | nil => rfl
  | cons m ms ih => cases m <;> rw [membersToJson, ih] <;> rfl

theorem paramsToJson_eq (ps : List Declaration) :
    paramsToJson ps = ps.map fun p => .record p.fields := by
  induction ps with
  | nil => rfl
  | cons p ps ih => rw [paramsToJson, ih]; rfl

section
variable {type? : Json → Option TypeExpr}

theorem Declaration.codec (ht : Codec type? id TypeExpr.toJson n) :
    Codec (ofFields? type?) id (fun d => .record d.fields) (n + 1) :=
  have hrecord := Codec.record (.field (.optional "name" .string nofun) fun name =>
    .field (.required "ty" ht) fun type =>
    .field (.optional "location" Location.codec nofun) fun location =>
    .pure (Declaration.mk name type location)) (by decide)
  hrecord.total (fun ⟨name, type, location⟩ => ⟨(name, type, location, ()), rfl⟩) fun _ => rfl

theorem Declaration.kind_not_mem (d : Declaration) : "kind" ∉ d.fields.map Prod.fst := by
  cases d
  simp [fields]

theorem Member.codec (ht : Codec type? id TypeExpr.toJson n) :
    Codec (node? type?) id toJson (n + 1) := by
  have hdeclaration := (Declaration.codec ht).map declaration
  have hignored := (Ignored.codec (n := n)).map ignored
  apply Codec.tagged
  · intro m
    cases m with
    | declaration d =>
      exact hdeclaration.reads_kinded (by decide) (fun _ => rfl) d rfl d.kind_not_mem
    | ignored i => exact hignored.reads_kinded (by decide) (fun _ => rfl) i rfl i.kind_not_mem
  · intro kind w m h
    simp only at h
    split at h
    · exact hdeclaration.shallow_kinded (fun _ => rfl) h
    · exact hignored.shallow_kinded (fun _ => rfl) h
    · cases h

theorem ContainerSpec.codec (ht : Codec type? id TypeExpr.toJson n) :
    Codec (ofFields? type?) id (fun s => .record s.fields) (n + 1) :=
  have hmembers := ((Member.codec ht).mono (Nat.le_succ n)).list.mono (Nat.le_succ n)
  have hrecord := Codec.record (.field (.optional "name" .string nofun) fun tag =>
    .field (.optional "members" hmembers nofun) fun members =>
    .field (.optional "location" Location.codec nofun) fun location =>
    .pure (ContainerSpec.mk tag members location)) (by decide)
  hrecord.total (fun ⟨tag, members, location⟩ => ⟨(tag, members, location, ()), rfl⟩) fun i => by
    obtain ⟨tag, members, location, ⟨⟩⟩ := i
    cases members with
    | none => rfl
    | some ms => simp only [fields, membersToJson_eq]; rfl

theorem ContainerSpec.kind_not_mem (s : ContainerSpec) : "kind" ∉ s.fields.map Prod.fst := by
  cases s
  simp [fields]

def Signature.fields (s : Signature) : List (String × Json) :=
  [("return_type", s.returns.toJson),
    ("params", .array (s.params.map fun p => .record p.fields)), ("variadic", .bool s.variadic)]

theorem Signature.kind_not_mem (s : Signature) : "kind" ∉ s.fields.map Prod.fst := by
  simp [fields]

theorem TypeExpr.toJson_function (s : Signature) :
    (function s).toJson = .kinded "Function" s.fields := by
  cases s
  simp only [toJson, Signature.fields, paramsToJson_eq]

theorem TypeExpr.depth_pos (t : TypeExpr) : 0 < t.toJson.depth := by
  cases t with
  | function s => rw [toJson_function]; exact depth_record_pos
  | _ => exact depth_record_pos

/-- Parameters that are left out are written as an empty list, which nests no
deeper than the type that is returned. -/
theorem Signature.codec (ht : Codec type? id TypeExpr.toJson n) :
    Codec (ofFields? type?) id (fun s => .record s.fields) (n + 1) :=
  have hparams := ((Declaration.codec ht).mono (Nat.le_succ n)).list.mono (Nat.le_succ n)
  have hlayout := Layout.above (.field (.required "return_type" ht) fun returns =>
    .field (.defaulted "params" [] hparams (Nat.le_refl _)) fun params =>
    .field (.defaulted "variadic" false .bool (Nat.zero_le _)) fun variadic =>
    .pure (Signature.mk returns params variadic)) (.required "return_type" ht) TypeExpr.depth_pos
  (Codec.record hlayout (by decide)).total
    (fun ⟨returns, params, variadic⟩ => ⟨(returns, params, variadic, ()), rfl⟩) fun _ => rfl

theorem TypeExpr.codec_node (hn : n ≤ depthLimit) (ht : Codec type? id toJson n) :
    Codec (node? type?) id toJson (n + 1) := by
  have hpointer := Codec.record (.field (.required "target" ht) fun t => .pure (pointer t))
    (by decide)
  have harray := Codec.record (.field (.required "target" ht) fun t =>
    .field (.optional "dim" .uint64 nofun) fun dim => .pure (array t dim)) (by decide)
  have hnames := (Codec.string (n := n)).list.mono (Nat.le_succ n)
  have hidentifier := Codec.record (.field (.required "names" hnames) fun names =>
    .pure (identifier names)) (by decide)
  have hcontainer (kind : ContainerKind) := (ContainerSpec.codec ht).map (container kind)
  have henumeration := (EnumSpec.codec hn).map enumeration
  have hfunction := (Signature.codec ht).map function
  apply Codec.tagged
  · intro t
    cases t with
    | pointer t => exact hpointer.reads_kinded (by decide) (fun _ => rfl) (t, ()) rfl (by simp)
    | array t dim => exact harray.reads_kinded (by decide) (fun _ => rfl) (t, dim, ()) rfl (by simp)
    | identifier names =>
      exact hidentifier.reads_kinded (by decide) (fun _ => rfl) (names, ()) rfl (by simp)
    | container kind spec =>
      exact (hcontainer kind).reads_kinded (by cases kind <;> decide)
        (fun _ => by cases kind <;> rfl) spec rfl spec.kind_not_mem
    | enumeration spec =>
      exact henumeration.reads_kinded (by decide) (fun _ => rfl) spec rfl spec.kind_not_mem
    | function signature =>
      exact hfunction.reads_kinded (by decide) (fun _ => rfl) signature (toJson_function signature)
        signature.kind_not_mem
  · intro kind w t h
    simp only at h
    split at h
    · exact hpointer.shallow_kinded (fun _ => rfl) h
    · exact harray.shallow_kinded (fun _ => rfl) h
    · exact hidentifier.shallow_kinded (fun _ => rfl) h
    · exact (hcontainer .struct).shallow_kinded (fun _ => rfl) h
    · exact (hcontainer .union).shallow_kinded (fun _ => rfl) h
    · exact henumeration.shallow_kinded (fun _ => rfl) h
    · exact hfunction.shallow_kinded toJson_function h
    · cases h

theorem TypeExpr.codec : ∀ n ≤ depthLimit, Codec (read? n) id toJson n
  | 0, _ => .none depth_pos
  | n + 1, hn => codec_node (Nat.le_of_succ_le hn) (codec n (Nat.le_of_succ_le hn))

end

/-! ## Units -/

def TypedefDecl.fields (d : TypedefDecl) : List (String × Json) :=
  [("name", .text d.name), ("ty", d.type.toJson), ("location", ofOption Location.toJson d.location)]

theorem TypedefDecl.kind_not_mem (d : TypedefDecl) : "kind" ∉ d.fields.map Prod.fst := by
  simp [fields]

theorem TypeExpr.codec_ofJson : Codec ofJson? id toJson depthLimit :=
  codec depthLimit (Nat.le_refl _)

theorem TypedefDecl.codec : Codec ofFields? id (fun d => .record d.fields) (depthLimit + 1) :=
  have hrecord := Codec.record (.field (.required "name" .string) fun name =>
    .field (.required "ty" TypeExpr.codec_ofJson) fun type =>
    .field (.optional "location" Location.codec nofun) fun location =>
    .pure (TypedefDecl.mk name type location)) (by decide)
  hrecord.total (fun ⟨name, type, location⟩ => ⟨(name, type, location, ()), rfl⟩) fun _ => rfl

theorem Item.codec : Codec ofJson? id toJson (depthLimit + 1) := by
  have htypedef := TypedefDecl.codec.map typedef
  have hcontainer (kind : ContainerKind) :=
    (ContainerSpec.codec TypeExpr.codec_ofJson).map (container kind)
  have henumeration := (EnumSpec.codec (Nat.le_refl _)).map enumeration
  have hdeclaration := (Declaration.codec TypeExpr.codec_ofJson).map declaration
  have hignored := (Ignored.codec (n := depthLimit)).map ignored
  apply Codec.tagged
  · intro item
    cases item with
    | typedef d => exact htypedef.reads_kinded (by decide) (fun _ => rfl) d rfl d.kind_not_mem
    | container kind spec =>
      exact (hcontainer kind).reads_kinded (by cases kind <;> decide)
        (fun _ => by cases kind <;> rfl) spec rfl spec.kind_not_mem
    | enumeration spec =>
      exact henumeration.reads_kinded (by decide) (fun _ => rfl) spec rfl spec.kind_not_mem
    | declaration d =>
      exact hdeclaration.reads_kinded (by decide) (fun _ => rfl) d rfl d.kind_not_mem
    | ignored i => exact hignored.reads_kinded (by decide) (fun _ => rfl) i rfl i.kind_not_mem
  · intro kind w item h
    simp only at h
    split at h
    · exact htypedef.shallow_kinded (fun _ => rfl) h
    · exact (hcontainer .struct).shallow_kinded (fun _ => rfl) h
    · exact (hcontainer .union).shallow_kinded (fun _ => rfl) h
    · exact henumeration.shallow_kinded (fun _ => rfl) h
    · exact hdeclaration.shallow_kinded (fun _ => rfl) h
    · exact hignored.shallow_kinded (fun _ => rfl) h
    · cases h

end CythonDecls
