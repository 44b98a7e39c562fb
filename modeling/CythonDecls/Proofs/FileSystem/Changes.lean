import CythonDecls.FileSystem.Memory

/-!
# What operations on files change

Writing and removing files leaves the directories as they are, so a path leads
to the same place before and after. What is at other places stays.
-/

namespace CythonDecls

namespace FileSystem

/-! ## Entries -/

section
variable {fs : FileSystem} {place q : Place} {entry : FileEntry}

theorem lookup_filter_ne (entries : List (Place × FileEntry)) (h : q ≠ place) :
    (entries.filter (·.1 ≠ place)).lookup q = entries.lookup q := by
  induction entries with
  | nil => rfl
  | cons e entries ih =>
    obtain ⟨k, a⟩ := e
    by_cases hk : k = place
    · have hq : (q == k) = false := beq_false_of_ne (hk ▸ h)
      simp only [List.filter_cons, ne_eq, hk, not_true_eq_false, decide_false, Bool.false_eq_true,
        if_false, ih]
      rw [← hk, List.lookup_cons, hq]
    · simp only [List.filter_cons, ne_eq, hk, not_false_eq_true, decide_true, if_true,
        List.lookup_cons, ih]

theorem lookup_filter_self (entries : List (Place × FileEntry)) :
    (entries.filter (·.1 ≠ place)).lookup place = none := by
  rw [List.lookup_eq_none_iff]
  intro e he
  exact bne_iff_ne.mpr (Ne.symm (of_decide_eq_true (List.mem_filter.mp he).2))

theorem find?_erase_ne (h : q ≠ place) : (fs.erase place).find? q = fs.find? q := by
  unfold find? erase
  rw [lookup_filter_ne _ h]

theorem find?_erase_self (h : place ≠ []) : (fs.erase place).find? place = none := by
  have hp : place.isEmpty = false := by simpa using h
  simp only [find?, erase, hp, lookup_filter_self, Bool.false_eq_true, if_false]

theorem find?_put_ne (h : q ≠ place) : (fs.put place entry).find? q = fs.find? q := by
  have hq : (q == place) = false := beq_false_of_ne h
  have herase : (fs.erase place).find? q = fs.find? q := find?_erase_ne h
  rw [← herase]
  simp only [find?, put, List.lookup_cons, hq]

theorem find?_put_self (h : place ≠ []) : (fs.put place entry).find? place = some entry := by
  have hp : place.isEmpty = false := by simpa using h
  simp only [find?, put, hp, List.lookup_cons_self, Bool.false_eq_true, if_false]

theorem ne_root (h : fs.find? place ≠ some .directory) : place ≠ [] := by
  intro hp
  exact h (by rw [hp]; rfl)

end

/-! ## Places -/

def SameDirs (fs fs' : FileSystem) : Prop :=
  ∀ place, fs'.find? place = some .directory ↔ fs.find? place = some .directory

section
variable {fs fs' : FileSystem}

theorem step_ok (hd : SameDirs fs fs') {place q : Place} {name : String}
    (h : fs.step place name = .ok q) :
    fs'.step place name = .ok q := by
  unfold step at h ⊢
  cases hf : fs.find? place with
  | none =>
    rw [hf] at h
    cases h
  | some entry =>
    cases entry with
    | file content =>
      rw [hf] at h
      cases h
    | directory =>
      rw [hf] at h
      rw [(hd place).mpr hf]
      exact h

theorem follow_ok (hd : SameDirs fs fs') (names : List String) : ∀ {place q : Place},
    names.foldlM fs.step place = .ok q → names.foldlM fs'.step place = .ok q := by
  induction names with
  | nil => exact id
  | cons name names ih =>
    intro place q h
    rw [List.foldlM_cons] at h ⊢
    cases hs : fs.step place name with
    | error e =>
      rw [hs] at h
      cases h
    | ok next =>
      rw [hs] at h
      rw [step_ok hd hs]
      exact ih h

theorem place_ok (hd : SameDirs fs fs') {p : Path} {place : Place} (h : fs.place p = .ok place) :
    fs'.place p = .ok place := by
  unfold FileSystem.place at h ⊢
  cases ha : admits p with
  | error e =>
    rw [ha] at h
    cases h
  | ok _ =>
    rw [ha] at h
    exact follow_ok hd _ h

theorem SameDirs.symm (hd : SameDirs fs fs') : SameDirs fs' fs := fun place => (hd place).symm

theorem SameDirs.place (hd : SameDirs fs fs') (p : Path) (place : Place) :
    fs'.place p = .ok place ↔ fs.place p = .ok place := ⟨place_ok hd.symm, place_ok hd⟩

end

def SamePlace (fs : FileSystem) (p q : Path) : Prop :=
  ∃ place, fs.place p = .ok place ∧ fs.place q = .ok place

theorem SameDirs.samePlace {fs fs' : FileSystem} (hd : SameDirs fs fs') {p q : Path} :
    fs'.SamePlace p q ↔ fs.SamePlace p q := by
  simp only [SamePlace, hd.place]

instance (fs : FileSystem) (p q : Path) : Decidable (fs.SamePlace p q) :=
  decidable_of_iff (∃ place ∈ (fs.place p).toOption, place ∈ (fs.place q).toOption) (by
    cases hp : fs.place p <;> cases hq : fs.place q <;>
      simp [SamePlace, hp, hq, Except.toOption])

/-! ## Reading -/

theorem read_of_place {fs : FileSystem} {p : Path} {place : Place} (hp : fs.place p = .ok place) :
    fs.read p = match fs.find? place with
      | some (.file content) => .ok content
      | some .directory => .error .isDirectory
      | none => .error .notFound := by
  unfold read lookup
  rw [hp]
  simp only [Bind.bind, Except.bind]
  cases fs.find? place with
  | none => rfl
  | some entry => cases entry <;> rfl

theorem read_ok {fs : FileSystem} {p : Path} {content : String} :
    fs.read p = .ok content ↔
      ∃ place, fs.place p = .ok place ∧ fs.find? place = some (.file content) := by
  cases hp : fs.place p with
  | error e =>
    have hread : fs.read p = .error e := by
      unfold read lookup
      rw [hp]
      rfl
    simp [hread]
  | ok place =>
    rw [read_of_place hp]
    cases hf : fs.find? place with
    | none => simp [hf]
    | some entry => cases entry <;> simp [hf]

/-! ## Changes -/

/-- From `fs` to `fs'` no directory changes, and nothing but what these paths lead to. -/
structure Touches (files : List Path) (fs fs' : FileSystem) : Prop where
  dirs : SameDirs fs fs'
  frame : ∀ place, (∀ file ∈ files, fs.place file ≠ .ok place) → fs'.find? place = fs.find? place

section
variable {files others : List Path} {fs fs₁ fs₂ : FileSystem} {p : Path} {content : String}

theorem Touches.refl (files : List Path) (fs : FileSystem) : Touches files fs fs :=
  ⟨fun _ => .rfl, fun _ _ => rfl⟩

theorem Touches.mono (h : Touches files fs fs₁) (hsub : files ⊆ others) : Touches others fs fs₁ :=
  ⟨h.dirs, fun place hp => h.frame place fun file hf => hp file (hsub hf)⟩

theorem Touches.trans (h₁ : Touches files fs fs₁) (h₂ : Touches files fs₁ fs₂) :
    Touches files fs fs₂ where
  dirs place := (h₂.dirs place).trans (h₁.dirs place)
  frame place hp := by
    rw [h₂.frame place fun file hf he => hp file hf ((h₁.dirs.place file place).mp he)]
    exact h₁.frame place hp

theorem Touches.read (h : Touches files fs fs₁) (hread : fs.read p = .ok content)
    (hp : ∀ file ∈ files, ¬fs.SamePlace p file) : fs₁.read p = .ok content := by
  obtain ⟨place, hplace, hf⟩ := read_ok.mp hread
  refine read_ok.mpr ⟨place, place_ok h.dirs hplace, ?_⟩
  rw [h.frame place fun file hmem he => hp file hmem ⟨place, hplace, he⟩]
  exact hf

theorem write_of_place {place : Place} (hp : fs.place p = .ok place) :
    fs.write p content = match fs.find? place with
      | some .directory => .error .isDirectory
      | _ => .ok (fs.put place (.file content)) := by
  unfold write
  rw [hp]
  simp only [Bind.bind, Except.bind]
  cases fs.find? place with
  | none => rfl
  | some entry => cases entry <;> rfl

theorem write_ok (h : fs.write p content = .ok fs₁) : ∃ place, fs.place p = .ok place ∧
    fs.find? place ≠ some .directory ∧ fs₁ = fs.put place (.file content) := by
  cases hp : fs.place p with
  | error e =>
    unfold write at h
    rw [hp] at h
    cases h
  | ok place =>
    rw [write_of_place hp] at h
    refine ⟨place, rfl, ?_⟩
    cases hf : fs.find? place with
    | none =>
      simp only [hf] at h
      exact ⟨nofun, (Except.ok.inj h).symm⟩
    | some entry =>
      cases entry with
      | directory => simp [hf] at h
      | file found =>
        simp only [hf] at h
        exact ⟨nofun, (Except.ok.inj h).symm⟩

/-- Where there is no directory before and after, another entry changes no directory. -/
theorem touches_of_ne {place : Place} (hp : fs.place p = .ok place)
    (hbefore : fs.find? place ≠ some .directory) (hafter : fs₁.find? place ≠ some .directory)
    (hne : ∀ q, q ≠ place → fs₁.find? q = fs.find? q) : Touches [p] fs fs₁ := by
  constructor
  · intro q
    by_cases hq : q = place
    · subst hq
      simp only [hbefore, hafter]
    · rw [hne q hq]
  · intro q hq
    apply hne
    intro he
    exact hq p List.mem_cons_self (he ▸ hp)

theorem write_touches (h : fs.write p content = .ok fs₁) : Touches [p] fs fs₁ := by
  obtain ⟨place, hp, hf, he⟩ := write_ok h
  subst he
  refine touches_of_ne hp hf ?_ fun q hq => find?_put_ne hq
  rw [find?_put_self (ne_root hf)]
  exact nofun

theorem write_read (h : fs.write p content = .ok fs₁) : fs₁.read p = .ok content := by
  have hd := (write_touches h).dirs
  obtain ⟨place, hp, hf, he⟩ := write_ok h
  refine read_ok.mpr ⟨place, place_ok hd hp, ?_⟩
  rw [he]
  exact find?_put_self (ne_root hf)

/-! ## Removing -/

/-- What changes is gone. -/
structure Removes (files : List Path) (fs fs' : FileSystem) :
    Prop extends Touches files fs fs' where
  gone : ∀ place, fs'.find? place = fs.find? place ∨ fs'.find? place = none

theorem remove_cases (fs : FileSystem) (p : Path) :
    fs.remove p = fs ∨ ∃ place, fs.place p = .ok place ∧ fs.find? place ≠ some .directory ∧
      fs.remove p = fs.erase place := by
  unfold remove
  cases hp : fs.place p with
  | error e => exact .inl rfl
  | ok place =>
    cases hf : fs.find? place with
    | none => exact .inl (by simp only [hf])
    | some entry =>
      cases entry with
      | directory => exact .inl (by simp only [hf])
      | file found => exact .inr ⟨place, rfl, by simp [hf], by simp only [hf]⟩

theorem remove_removes (fs : FileSystem) (p : Path) : Removes [p] fs (fs.remove p) := by
  obtain he | ⟨place, hp, hf, he⟩ := remove_cases fs p
  · rw [he]
    exact ⟨.refl [p] fs, fun _ => .inl rfl⟩
  · rw [he]
    have hgone : (fs.erase place).find? place = none := find?_erase_self (ne_root hf)
    have hne (q : Place) (hq : q ≠ place) :
        (fs.erase place).find? q = fs.find? q := find?_erase_ne hq
    refine ⟨touches_of_ne hp hf (by rw [hgone]; exact nofun) hne, ?_⟩
    intro q
    by_cases hq : q = place
    · exact .inr (hq ▸ hgone)
    · exact .inl (hne q hq)

theorem find?_remove {place : Place} (hp : fs.place p = .ok place)
    (hf : fs.find? place ≠ some .directory) : (fs.remove p).find? place = none := by
  unfold remove
  rw [hp]
  cases h : fs.find? place with
  | none => simp only [h]
  | some entry =>
    cases entry with
    | directory => exact absurd h hf
    | file found =>
      simp only [h]
      exact find?_erase_self (ne_root hf)

theorem Removes.mono (h : Removes files fs fs₁) (hsub : files ⊆ others) : Removes others fs fs₁ :=
  ⟨h.toTouches.mono hsub, h.gone⟩

theorem Removes.trans (h₁ : Removes files fs fs₁) (h₂ : Removes files fs₁ fs₂) :
    Removes files fs fs₂ := by
  refine ⟨h₁.toTouches.trans h₂.toTouches, fun place => ?_⟩
  obtain h | h := h₂.gone place
  · rw [h]
    exact h₁.gone place
  · exact .inr h

def Clears (files : List Path) (fs fs' : FileSystem) : Prop :=
  ∀ file ∈ files, ∀ place, fs.place file = .ok place → fs.find? place ≠ some .directory →
    fs'.find? place = none

theorem Clears.of_sameDirs (h : Clears files fs₁ fs₂) (hd : SameDirs fs fs₁) :
    Clears files fs fs₂ :=
  fun file hf place hp hne =>
    h file hf place (place_ok hd hp) fun hdir => hne ((hd place).mp hdir)

theorem removeAll_removes (files : List Path) : ∀ fs,
    Removes files fs (files.foldl remove fs) ∧ Clears files fs (files.foldl remove fs) := by
  induction files with
  | nil => exact fun fs => ⟨⟨.refl [] fs, fun _ => .inl rfl⟩, fun _ hf => nomatch hf⟩
  | cons file files ih =>
    intro fs
    have hfirst := remove_removes fs file
    obtain ⟨hrest, hclear⟩ := ih (fs.remove file)
    refine ⟨(hfirst.mono (by simp)).trans (hrest.mono (by simp)), ?_⟩
    intro f hf place hp hne
    obtain rfl | hf := List.mem_cons.mp hf
    · obtain h | h := hrest.gone place
      · rw [List.foldl_cons, h]
        exact find?_remove hp hne
      · exact h
    · exact hclear.of_sameDirs hfirst.dirs f hf place hp hne

end

section
variable {f : FileSystem → Except OsError FileSystem} {fs fs₁ : FileSystem} {e : OsError}

theorem change_ok (h : f fs = .ok fs₁) : change f fs = (.ok (), fs₁) := by
  simp only [change, h]

theorem change_error (h : f fs = .error e) : change f fs = (.error e, fs) := by
  simp only [change, h]

end

theorem run_read (fs : FileSystem) (p : Path) :
    (Files.read (m := StateM FileSystem) p).run fs = (fs.read p, fs) := rfl

theorem run_write_ok {fs fs₁ : FileSystem} {p : Path} {content : String}
    (h : fs.write p content = .ok fs₁) :
    (Files.write (m := StateM FileSystem) p content).run fs = (.ok (), fs₁) :=
  change_ok (f := (·.write p content)) h

theorem run_write_error {fs : FileSystem} {p : Path} {content : String} {e : OsError}
    (h : fs.write p content = .error e) :
    (Files.write (m := StateM FileSystem) p content).run fs = (.error e, fs) :=
  change_error (f := (·.write p content)) h

theorem run_kindOf (fs : FileSystem) (p : Path) :
    (Files.kindOf (m := StateM FileSystem) p).run fs = (fs.kindOf p, fs) := rfl

theorem run_bind_of_run {α β : Type} {w : StateM FileSystem α} {f : α → StateM FileSystem β}
    {fs fs₁ : FileSystem} {a : α} (h : w.run fs = (a, fs₁)) : (w >>= f).run fs = (f a).run fs₁ := by
  rw [StateT.run_bind, h]
  rfl

/-! ## Making directories -/

def SameFiles (fs fs' : FileSystem) : Prop :=
  ∀ place content, fs'.find? place = some (.file content) ↔ fs.find? place = some (.file content)

def KeepsFiles {α : Type} (w : StateM FileSystem α) : Prop := ∀ fs, SameFiles fs (w.run fs).2

section
variable {α β : Type} {w : StateM FileSystem α} {f : α → StateM FileSystem β}

theorem KeepsFiles.pure (a : α) : KeepsFiles (Pure.pure a) := fun _ _ _ => .rfl

theorem KeepsFiles.bind (hw : KeepsFiles w) (hf : ∀ a, KeepsFiles (f a)) : KeepsFiles (w >>= f) :=
  fun fs place content => (hf _ _ place content).trans (hw fs place content)

theorem makeDir_ok {fs changed : FileSystem} {p : Path} (h : fs.makeDir p = .ok changed) :
    ∃ place, fs.find? place = none ∧ changed = fs.put place .directory := by
  unfold makeDir at h
  cases ha : admits p with
  | error e =>
    rw [ha] at h
    cases h
  | ok _ =>
    cases hf : fs.follow (names p) with
    | error e =>
      rw [ha, hf] at h
      cases h
    | ok place =>
      rw [ha, hf] at h
      simp only [Bind.bind, Except.bind] at h
      cases hn : fs.find? place with
      | some entry => simp [hn] at h
      | none =>
        simp only [hn] at h
        exact ⟨place, hn, (Except.ok.inj h).symm⟩

theorem makeDir_keeps (p : Path) : KeepsFiles (Files.makeDir p) := by
  intro fs
  show SameFiles fs (change (·.makeDir p) fs).2
  cases h : fs.makeDir p with
  | error e =>
    rw [change_error h]
    exact fun _ _ => .rfl
  | ok changed =>
    rw [change_ok h]
    obtain ⟨place, hnone, he⟩ := makeDir_ok h
    subst he
    intro q content
    by_cases hq : q = place
    · subst hq
      rw [find?_put_self (ne_root (by rw [hnone]; exact nofun)), hnone]
      exact ⟨nofun, nofun⟩
    · rw [find?_put_ne hq]

theorem kindOf_keeps (p : Path) : KeepsFiles (Files.kindOf p) := fun _ _ _ => .rfl

theorem ensureDir_keeps (p : Path) : KeepsFiles (Files.ensureDir p) := by
  refine (makeDir_keeps p).bind fun r => ?_
  cases r with
  | ok _ => exact .pure _
  | error e => exact (kindOf_keeps p).bind fun _ => .pure _

theorem makeDirsUpTo_keeps (n : Nat) : ∀ p, KeepsFiles (Files.makeDirsUpTo n p) := by
  induction n with
  | zero => exact ensureDir_keeps
  | succ n ih =>
    intro p
    refine (ensureDir_keeps p).bind fun r => ?_
    cases r with
    | ok _ => exact .pure _
    | error e =>
      cases hp : p.parent? with
      | none => exact .pure _
      | some above =>
        by_cases he : e.isNotFound = true
        · simp only [he, if_true]
          refine (ih above).bind fun r => ?_
          cases r with
          | ok _ => exact ensureDir_keeps p
          | error e => exact .pure _
        · simp only [he]
          exact .pure _

theorem makeDirs_keeps (p : Path) : KeepsFiles (Files.makeDirs p) := makeDirsUpTo_keeps _ p

end

end FileSystem

end CythonDecls
