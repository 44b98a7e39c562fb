import CythonDecls.Json.Record
import CythonDecls.Tree.Encode
import CythonDecls.Proofs.Json.Numbers

/-!
# Codecs

A codec is a reader and a writer that belong together: what was written is
read back, and whatever a value was read to is written again without nesting
deeper than that value did. Lists, the fields of records and their kinds hand
both properties on. A field that was left out is written as null or as its
default, so the depth is where leaving out might show.
-/

namespace CythonDecls.Json

/-! ## Depth and soundness of containers -/

section
variable {vs : List Json} {fs : Fields} {fields : List (String × Json)} {d : Nat}

theorem itemsDepth_le : itemsDepth vs ≤ d ↔ ∀ v ∈ vs, v.depth ≤ d := by
  induction vs with
  | nil => simp [itemsDepth]
  | cons v vs ih => rw [itemsDepth, Nat.max_le, ih, List.forall_mem_cons]

theorem fieldsDepth_le : fieldsDepth fs ≤ d ↔ ∀ f ∈ fs, f.2.depth ≤ d := by
  induction fs with
  | nil => simp [fieldsDepth]
  | cons f fs ih => rw [fieldsDepth, Nat.max_le, ih, List.forall_mem_cons]

theorem itemsSound_iff : itemsSound vs = true ↔ ∀ v ∈ vs, v.sound = true := by
  induction vs with
  | nil => simp [itemsSound]
  | cons v vs ih => simp [itemsSound, ih]

theorem fieldsSound_iff : fieldsSound fs = true ↔ ∀ f ∈ fs, f.1.isSome ∧ f.2.sound = true := by
  induction fs with
  | nil => simp [fieldsSound]
  | cons f fs ih => rw [fieldsSound, Bool.and_eq_true, Bool.and_eq_true, ih, List.forall_mem_cons]

@[simp] theorem depth_array_le : (array vs).depth ≤ d + 1 ↔ ∀ v ∈ vs, v.depth ≤ d := by
  rw [depth, Nat.add_le_add_iff_right, itemsDepth_le]

@[simp] theorem sound_array : (array vs).sound = true ↔ ∀ v ∈ vs, v.sound = true := by
  rw [sound, itemsSound_iff]

theorem depth_record_le : (record fields).depth ≤ d + 1 ↔ ∀ f ∈ fields, f.2.depth ≤ d := by
  rw [record, depth, Nat.add_le_add_iff_right, fieldsDepth_le, List.forall_mem_map]

theorem sound_record : (record fields).sound = true ↔ ∀ f ∈ fields, f.2.sound = true := by
  rw [record, sound, fieldsSound_iff, List.forall_mem_map]
  simp

theorem depth_record_pos : 0 < (record fields).depth := Nat.succ_pos _

end

/-! ## Finding fields -/

section
variable {names : List String} {name : String} {v w : Json} {fs : Fields}
variable {fields : List (String × Json)}

def Fields.of (fields : List (String × Json)) : Fields := fields.map fun (k, v) => (some k, v)

theorem Fields.find?_depth (h : fs.find? name = some v) : v.depth ≤ fieldsDepth fs := by
  obtain ⟨f, hf, rfl⟩ := Option.map_eq_some_iff.mp h
  exact fieldsDepth_le.mp (Nat.le_refl _) f (List.mem_of_find?_eq_some hf)

theorem fields?_depth (h : fields? names v = some fs) : fieldsDepth fs < v.depth := by
  cases v with
  | object gs =>
    rw [fields?] at h
    split at h <;> cases h
    exact Nat.lt_succ_self _
  | array vs =>
    rw [fields?] at h
    split at h <;> cases h
    apply Nat.lt_succ_of_le
    apply fieldsDepth_le.mpr
    intro f hf
    exact itemsDepth_le.mp (Nat.le_refl _) f.2 (List.of_mem_zip hf).2
  | _ => cases h

theorem Fields.occurrences_of (fields : List (String × Json)) (name : String) :
    (Fields.of fields).occurrences name = (fields.map Prod.fst).count name := by
  rw [occurrences, of, List.countP_map, List.count, List.countP_map]
  exact List.countP_congr fun f _ => by simp

theorem fields?_record (hnodup : (fields.map Prod.fst).Nodup) :
    fields? (fields.map Prod.fst) (record fields) = some (.of fields) := by
  apply if_pos
  apply List.all_eq_true.mpr
  intro name _
  rw [decide_eq_true_eq, ← Fields.of, Fields.occurrences_of]
  exact List.nodup_iff_count.mp hnodup name

theorem Fields.find?_of (hnodup : (fields.map Prod.fst).Nodup) (hmem : (name, v) ∈ fields) :
    (Fields.of fields).find? name = some v := by
  induction fields with
  | nil => cases hmem
  | cons f fields ih =>
    rw [List.map_cons, List.nodup_cons] at hnodup
    show (List.find? _ ((some f.1, f.2) :: of fields)).map _ = _
    rw [List.find?_cons]
    cases hmem with
    | head => simp
    | tail _ hmem =>
      have hne : f.1 ≠ name := by
        intro he
        exact hnodup.1 (he ▸ List.mem_map_of_mem (f := Prod.fst) hmem)
      rw [show decide (some f.1 = some name) = false by simpa using hne]
      exact ih hnodup.2 hmem

end

/-! ## Kinds -/

section
variable {nesting : Nesting} {kinds : List String} {kind : String} {v w : Json}
variable {fields : List (String × Json)}

theorem tagged?_depth (h : tagged? nesting kinds v = some (kind, w)) : w.depth ≤ v.depth := by
  cases v with
  | object fs =>
    rw [tagged?] at h
    split at h
    · obtain ⟨_, _, h⟩ := Option.bind_eq_some_iff.mp h
      cases h
      apply Nat.succ_le_succ
      apply fieldsDepth_le.mpr
      intro f hf
      exact fieldsDepth_le.mp (Nat.le_refl _) f (List.mem_filter.mp hf).1
    · cases h
  | array vs =>
    cases vs with
    | nil => cases h
    | cons v vs =>
      obtain ⟨_, _, h⟩ := Option.bind_eq_some_iff.mp h
      cases h
      exact Nat.succ_le_succ (Nat.le_max_right _ _)
  | _ => cases h

theorem tagged?_kinded (hkind : kind ∈ kinds) (hfields : "kind" ∉ fields.map Prod.fst) :
    tagged? nesting kinds (kinded kind fields) = some (kind, record fields) := by
  have honce : Fields.occurrences (Fields.of (("kind", text kind) :: fields)) "kind" = 1 := by
    rw [Fields.occurrences_of, List.map_cons, List.count_cons_self, List.count_eq_zero.mpr hfields]
  have hkept : (Fields.of fields).filter (fun f => f.1 ≠ some "kind") = Fields.of fields := by
    apply List.filter_eq_self.mpr
    intro f hf
    obtain ⟨g, hg, rfl⟩ := List.mem_map.mp hf
    have hne : g.1 ≠ "kind" := fun he => hfields (he ▸ List.mem_map_of_mem hg)
    simpa using hne
  have hread : kind? nesting kinds (text kind) = some kind := by
    simp [kind?, text, Option.filter, hkind]
  rw [kinded, record, ← Fields.of, tagged?, if_pos honce]
  show (kind? nesting kinds (text kind)).bind _ = _
  rw [hread, Option.bind_some]
  show some (kind, object ((Fields.of fields).filter _)) = _
  rw [hkept]
  rfl

@[simp] theorem depth_kinded : (kinded kind fields).depth = (record fields).depth := by
  simp [kinded, record, depth, fieldsDepth, text]

@[simp] theorem sound_kinded : (kinded kind fields).sound = (record fields).sound := by
  simp [kinded, record, sound, fieldsSound, text]

end

/-! ## Codecs -/

/-- `read` takes what was written for `i` to `build i`, and what it takes to a value
at all it takes to some `build i` that is written without nesting deeper. Only what
nests at most `n` deep is read back. -/
structure Codec {ι α : Type} (read : Json → Option α) (build : ι → α) (write : ι → Json)
    (n : Nat) : Prop where
  sound : ∀ i, (write i).depth ≤ n → (write i).sound = true
  reads : ∀ i, (write i).depth ≤ n → read (write i) = some (build i)
  shallow : ∀ v a, read v = some a → ∃ i, build i = a ∧ (write i).depth ≤ v.depth

section
variable {ι α β : Type} {read : Json → Option α} {build : ι → α} {write : ι → Json}
variable {save : α → Json} {n m : Nat}

theorem Codec.mono (hc : Codec read build write n) (hm : m ≤ n) : Codec read build write m where
  sound i hi := hc.sound i (Nat.le_trans hi hm)
  reads i hi := hc.reads i (Nat.le_trans hi hm)
  shallow := hc.shallow

theorem Codec.total (hc : Codec read build write n) (hbuild : ∀ a, ∃ i, build i = a)
    (hsave : ∀ i, save (build i) = write i) : Codec read id save n where
  sound a ha := by
    obtain ⟨i, rfl⟩ := hbuild a
    rw [hsave] at ha ⊢
    exact hc.sound i ha
  reads a ha := by
    obtain ⟨i, rfl⟩ := hbuild a
    rw [hsave] at ha ⊢
    exact hc.reads i ha
  shallow v a h := by
    obtain ⟨i, rfl, hd⟩ := hc.shallow v a h
    exact ⟨build i, rfl, hsave i ▸ hd⟩

theorem Codec.map (hc : Codec read build write n) (f : α → β) :
    Codec (fun v => do return f (← read v)) (fun i => f (build i)) write n where
  sound := hc.sound
  reads i hi := by rw [hc.reads i hi]; rfl
  shallow v b h := by
    obtain ⟨a, ha, hb⟩ := Option.bind_eq_some_iff.mp h
    cases hb
    obtain ⟨i, rfl, hd⟩ := hc.shallow v a ha
    exact ⟨i, rfl, hd⟩

/-- What is written always nests, so reading nothing gives back all that does not. -/
theorem Codec.none (hsave : ∀ a, 0 < (save a).depth) : Codec (fun _ => .none) id save 0 where
  sound a ha := absurd (hsave a) (Nat.not_lt.mpr ha)
  reads a ha := absurd (hsave a) (Nat.not_lt.mpr ha)
  shallow _ _ h := nomatch h

end

/-! ## Single values and lists -/

section
variable {n : Nat}

theorem Codec.string : Codec string? id text n where
  sound _ _ := rfl
  reads _ _ := rfl
  shallow _ s _ := ⟨s, rfl, Nat.zero_le _⟩

theorem Codec.bool : Codec bool? id .bool n where
  sound _ _ := rfl
  reads _ _ := rfl
  shallow _ b _ := ⟨b, rfl, Nat.zero_le _⟩

theorem Codec.uint32 : Codec uint32? id (fun k => nat k.toNat) n where
  sound k _ := fits_toString (Nat.lt_trans k.toNat_lt (by decide))
  reads k _ := by
    rw [uint32?, nat?_nat, Option.bind_some, if_pos k.toNat_lt, UInt32.ofNat_toNat]
    rfl
  shallow _ k _ := ⟨k, rfl, Nat.zero_le _⟩

theorem Codec.uint64 : Codec uint64? id (fun k => nat k.toNat) n where
  sound k _ := fits_toString k.toNat_lt
  reads k _ := by
    rw [uint64?, nat?_nat, Option.bind_some, if_pos k.toNat_lt, UInt64.ofNat_toNat]
    rfl
  shallow _ k _ := ⟨k, rfl, Nat.zero_le _⟩

theorem Codec.named {α : Type} {nesting : Nesting} {read : String → Option α} {save : α → String}
    (hread : ∀ a, read (save a) = some a) :
    Codec (named? nesting read) id (fun a => text (save a)) n where
  sound _ _ := rfl
  reads a _ := by
    cases nesting <;> exact hread a
  shallow _ a _ := ⟨a, rfl, Nat.zero_le _⟩

end

section
variable {α : Type} {read : Json → Option α} {save : α → Json} {n : Nat}

theorem mapM_save {as : List α} (h : ∀ a ∈ as, read (save a) = some a) :
    (as.map save).mapM read = some as := by
  induction as with
  | nil => rfl
  | cons a as ih =>
    rw [List.forall_mem_cons] at h
    rw [List.map_cons, List.mapM_cons, h.1, ih h.2]
    rfl

theorem mem_mapM {vs : List Json} {as : List α} (h : vs.mapM read = some as) :
    ∀ a ∈ as, ∃ v ∈ vs, read v = some a := by
  induction vs generalizing as with
  | nil =>
    cases h
    exact fun _ ha => nomatch ha
  | cons v vs ih =>
    rw [List.mapM_cons] at h
    obtain ⟨b, hb, h⟩ := Option.bind_eq_some_iff.mp h
    obtain ⟨bs, hbs, h⟩ := Option.bind_eq_some_iff.mp h
    cases h
    intro a ha
    cases ha with
    | head => exact ⟨v, List.mem_cons_self, hb⟩
    | tail _ ha =>
      obtain ⟨w, hw, hread⟩ := ih hbs a ha
      exact ⟨w, List.mem_cons_of_mem _ hw, hread⟩

theorem Codec.list (hc : Codec read id save n) :
    Codec (list? read) id (fun as => array (as.map save)) (n + 1) where
  sound as has := by
    rw [depth_array_le, List.forall_mem_map] at has
    rw [sound_array, List.forall_mem_map]
    exact fun a ha => hc.sound a (has a ha)
  reads as has := by
    rw [depth_array_le, List.forall_mem_map] at has
    exact mapM_save fun a ha => hc.reads a (has a ha)
  shallow v as h := by
    cases v with
    | array vs =>
      refine ⟨as, rfl, depth_array_le.mpr (List.forall_mem_map.mpr ?_)⟩
      intro a ha
      obtain ⟨v, hv, hread⟩ := mem_mapM h a ha
      obtain ⟨_, rfl, hd⟩ := hc.shallow v a hread
      exact Nat.le_trans hd (itemsDepth_le.mp (Nat.le_refl _) v hv)
    | _ => cases h

end

/-! ## Fields -/

/-- A field of a record, as a codec is one of a value. A default may be written up
to `floor` deep without having been there. -/
structure Field {α : Type} (look : Fields → Option α) (name : String) (put : α → Json)
    (n floor : Nat) : Prop where
  sound : ∀ a, (put a).depth ≤ n → (put a).sound = true
  reads : ∀ fs a, fs.find? name = some (put a) → (put a).depth ≤ n → look fs = some a
  shallow : ∀ fs a, look fs = some a → (put a).depth ≤ max floor (fieldsDepth fs)

section
variable {α : Type} {read : Json → Option α} {save : α → Json} {n floor : Nat}

theorem Fields.find?_shallow (hc : Codec read id save n) {fs : Fields} {name : String} {v : Json}
    {a : α} (hf : fs.find? name = some v) (hv : read v = some a) :
    (save a).depth ≤ max floor (fieldsDepth fs) := by
  obtain ⟨_, rfl, hd⟩ := hc.shallow v a hv
  exact Nat.le_trans (Nat.le_trans hd (find?_depth hf)) (Nat.le_max_right _ _)

theorem Field.required (name : String) (hc : Codec read id save n) :
    Field (fun fs => fs.required name read) name save n floor where
  sound := hc.sound
  reads fs a hf ha := by rw [Fields.required, hf]; exact hc.reads a ha
  shallow fs a h := by
    obtain ⟨v, hf, hv⟩ := Option.bind_eq_some_iff.mp h
    exact Fields.find?_shallow hc hf hv

theorem Field.optional (name : String) (hc : Codec read id save n) (hsave : ∀ a, save a ≠ .null) :
    Field (fun fs => fs.optional name read) name (ofOption save) n floor where
  sound a ha := by
    cases a with
    | none => rfl
    | some a => exact hc.sound a ha
  reads fs a hf ha := by
    cases a with
    | none => rw [Fields.optional, hf]; rfl
    | some a =>
      have hread := hc.reads a ha
      have hnull := hsave a
      rw [Fields.optional, hf, ofOption]
      cases hv : save a <;> simp_all
  shallow fs a h := by
    rw [Fields.optional] at h
    split at h
    · cases h
      exact Nat.zero_le _
    · cases h
      exact Nat.zero_le _
    · rename_i v _ hf
      obtain ⟨a, hv, rfl⟩ := Option.map_eq_some_iff.mp h
      exact Fields.find?_shallow hc hf hv

theorem Field.defaulted (name : String) (value : α) (hc : Codec read id save n)
    (hvalue : (save value).depth ≤ floor) :
    Field (fun fs => fs.defaulted name value read) name save n floor where
  sound := hc.sound
  reads fs a hf ha := by rw [Fields.defaulted, hf]; exact hc.reads a ha
  shallow fs a h := by
    rw [Fields.defaulted] at h
    split at h
    · cases h
      exact Nat.le_trans hvalue (Nat.le_max_left _ _)
    · exact Fields.find?_shallow hc ‹_› h

end

/-! ## Records -/

/-- The fields `names` of a record, looked up one after the other. -/
structure Layout {ι α : Type} (names : List String) (look : Fields → Option α) (build : ι → α)
    (put : ι → List (String × Json)) (n floor : Nat) : Prop where
  names : ∀ i, (put i).map Prod.fst = names
  sound : ∀ i, (∀ f ∈ put i, f.2.depth ≤ n) → ∀ f ∈ put i, f.2.sound = true
  reads : ∀ fs i, (∀ f ∈ put i, fs.find? f.1 = some f.2) → (∀ f ∈ put i, f.2.depth ≤ n) →
    look fs = some (build i)
  shallow : ∀ fs a, look fs = some a →
    ∃ i, build i = a ∧ ∀ f ∈ put i, f.2.depth ≤ max floor (fieldsDepth fs)

section
variable {ι α β : Type} {names : List String} {name : String} {n floor : Nat}
variable {look : Fields → Option β} {put : β → Json}
variable {rest : β → Fields → Option α} {build : β → ι → α} {puts : ι → List (String × Json)}

theorem Layout.pure (a : α) :
    Layout [] (fun _ => some a) (fun _ : Unit => a) (fun _ => []) n floor where
  names _ := rfl
  sound _ _ := nofun
  reads _ _ _ _ := rfl
  shallow _ _ h := ⟨(), Option.some.inj h, nofun⟩

theorem Layout.field (hf : Field look name put n floor)
    (hrest : ∀ b, Layout names (rest b) (build b) puts n floor) :
    Layout (name :: names) (fun fs => look fs >>= fun b => rest b fs)
      (fun i : β × ι => build i.1 i.2) (fun i => (name, put i.1) :: puts i.2) n floor where
  names i := by rw [List.map_cons, (hrest i.1).names]
  sound i hi := by
    rw [List.forall_mem_cons] at hi ⊢
    exact ⟨hf.sound i.1 hi.1, (hrest i.1).sound i.2 hi.2⟩
  reads fs i hfs hi := by
    rw [List.forall_mem_cons] at hi hfs
    rw [hf.reads fs i.1 hfs.1 hi.1]
    exact (hrest i.1).reads fs i.2 hfs.2 hi.2
  shallow fs a h := by
    obtain ⟨b, hb, h⟩ := Option.bind_eq_some_iff.mp h
    obtain ⟨i, rfl, hi⟩ := (hrest b).shallow fs a h
    exact ⟨(b, i), rfl, List.forall_mem_cons.mpr ⟨hf.shallow fs b hb, hi⟩⟩

/-- The first field already nests as deep as any default behind it. -/
theorem Layout.above (hl : Layout (name :: names) (fun fs => look fs >>= fun b => rest b fs)
      (fun i : β × ι => build i.1 i.2) (fun i => (name, put i.1) :: puts i.2) n floor)
    (hf : Field look name put n 0) (hput : ∀ b, floor ≤ (put b).depth) :
    Layout (name :: names) (fun fs => look fs >>= fun b => rest b fs)
      (fun i : β × ι => build i.1 i.2) (fun i => (name, put i.1) :: puts i.2) n 0 where
  names := hl.names
  sound := hl.sound
  reads := hl.reads
  shallow fs a h := by
    obtain ⟨b, hb, _⟩ := Option.bind_eq_some_iff.mp h
    have hfloor := Nat.le_trans (hput b) (hf.shallow fs b hb)
    rw [Nat.zero_max] at hfloor ⊢
    rw [← Nat.max_eq_right hfloor]
    exact hl.shallow fs a h

section
variable {look : Fields → Option α} {build : ι → α}

theorem Layout.sound_record (hl : Layout names look build puts n floor) {i : ι}
    (hi : (record (puts i)).depth ≤ n + 1) : (record (puts i)).sound = true :=
  Json.sound_record.mpr (hl.sound i (depth_record_le.mp hi))

theorem Layout.reads_record (hl : Layout names look build puts n floor)
    (hnodup : names.Nodup) {i : ι}
    (hi : (record (puts i)).depth ≤ n + 1) :
    (fields? names (record (puts i)) >>= look) = some (build i) := by
  have hnodup : ((puts i).map Prod.fst).Nodup := hl.names i ▸ hnodup
  rw [← hl.names i, fields?_record hnodup]
  exact hl.reads _ i (fun f hf => Fields.find?_of hnodup hf) (depth_record_le.mp hi)

theorem Codec.record (hl : Layout names look build puts n 0) (hnodup : names.Nodup) :
    Codec (fun v => fields? names v >>= look) build (fun i => record (puts i)) (n + 1) where
  sound _ hi := hl.sound_record hi
  reads _ hi := hl.reads_record hnodup hi
  shallow v a h := by
    obtain ⟨fs, hfs, h⟩ := Option.bind_eq_some_iff.mp h
    obtain ⟨i, rfl, hi⟩ := hl.shallow fs a h
    rw [Nat.zero_max] at hi
    exact ⟨i, rfl, Nat.le_trans (depth_record_le.mpr hi) (fields?_depth hfs)⟩

end

end

/-! ## Choices -/

/-- What is written for `a` names its kind, and the record behind is read back. -/
def Tagged {α : Type} (kinds : List String) (payload : String × Json → Option α)
    (save : α → Json) (n : Nat) (a : α) : Prop :=
  ∃ kind ∈ kinds, ∃ fields, save a = kinded kind fields ∧ "kind" ∉ fields.map Prod.fst ∧
    ((Json.record fields).depth ≤ n →
      (Json.record fields).sound = true ∧ payload (kind, .record fields) = some a)

section
variable {ι α : Type} {kinds : List String} {kind : String} {nesting : Nesting} {n : Nat}
variable {payload : String × Json → Option α} {save : α → Json}

theorem Codec.tagged (hreads : ∀ a, Tagged kinds payload save n a)
    (hshallow : ∀ kind w a, payload (kind, w) = some a → (save a).depth ≤ w.depth) :
    Codec (fun v => tagged? nesting kinds v >>= payload) id save n where
  sound a ha := by
    obtain ⟨kind, _, fields, hsave, _, hr⟩ := hreads a
    rw [hsave, depth_kinded] at ha
    rw [hsave, sound_kinded]
    exact (hr ha).1
  reads a ha := by
    obtain ⟨kind, hkind, fields, hsave, hfields, hr⟩ := hreads a
    rw [hsave, depth_kinded] at ha
    rw [hsave, tagged?_kinded hkind hfields]
    exact (hr ha).2
  shallow v a h := by
    obtain ⟨⟨kind, w⟩, htag, h⟩ := Option.bind_eq_some_iff.mp h
    exact ⟨a, rfl, Nat.le_trans (hshallow kind w a h) (tagged?_depth htag)⟩

variable {look : Json → Option α} {build : ι → α} {put : ι → List (String × Json)}

theorem Codec.reads_kinded (hc : Codec look build (fun i => .record (put i)) n)
    (hkind : kind ∈ kinds) (hpayload : ∀ w, payload (kind, w) = look w) (i : ι)
    (hsave : save (build i) = kinded kind (put i)) (hput : "kind" ∉ (put i).map Prod.fst) :
    Tagged kinds payload save n (build i) :=
  ⟨kind, hkind, put i, hsave, hput, fun hd => ⟨hc.sound i hd, hpayload _ ▸ hc.reads i hd⟩⟩

theorem Codec.shallow_kinded (hc : Codec look build (fun i => .record (put i)) n)
    (hsave : ∀ i, save (build i) = kinded kind (put i)) {w : Json} {a : α} (h : look w = some a) :
    (save a).depth ≤ w.depth := by
  obtain ⟨i, rfl, hd⟩ := hc.shallow w a h
  rwa [hsave, depth_kinded]

end

end CythonDecls.Json
