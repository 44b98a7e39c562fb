import CythonDecls.Project.Run
import CythonDecls.Proofs.FileSystem.Changes
import CythonDecls.Proofs.FileSystem.PathEnds

/-!
# The files of a plan

The headers of a plan are generated in turn. A header that succeeds has its text
in each of its files when its turn ends, and one that fails has removed what it
wrote. Nothing keeps the files of different headers apart: a later header that
writes to the same place replaces a file, or removes it when it fails.
-/

namespace CythonDecls

open FileSystem

/-! ## Writing the files of a header -/

section
variable {fs fs₁ fs' : FileSystem} {written : List Path} {file : Path} {text : String}
  {files : List (Path × String)}

theorem writeFiles_cons_ok (h : fs.write file text = .ok fs₁) :
    (writeFiles (m := StateM FileSystem) written ((file, text) :: files)).run fs =
      (writeFiles (m := StateM FileSystem) (written ++ [file]) files).run fs₁ := by
  rw [writeFiles, StateT.run_bind, run_write_ok h]
  rfl

theorem removeAll_run (files : List Path) : ∀ fs,
    (files.forM (Files.remove (m := StateM FileSystem))).run fs =
      (⟨⟩, files.foldl FileSystem.remove fs) := by
  induction files with
  | nil => exact fun _ => rfl
  | cons file files ih => exact fun fs => ih (fs.remove file)

theorem writeFiles_cons_error {e : OsError} (h : fs.write file text = .error e) :
    (writeFiles (m := StateM FileSystem) written ((file, text) :: files)).run fs =
      (.error (.unwritable file e), written.foldl FileSystem.remove fs) := by
  rw [writeFiles, StateT.run_bind, run_write_error h]
  show ((written.forM Files.remove : StateM FileSystem _) >>= fun _ => _).run fs = _
  rw [StateT.run_bind, removeAll_run]
  rfl

theorem writeFiles_ok (files : List (Path × String)) : ∀ {fs fs' written paths},
    (writeFiles (m := StateM FileSystem) written files).run fs = (.ok paths, fs') →
    paths = written ++ files.map (·.1) ∧ Touches (files.map (·.1)) fs fs' ∧
      (files.Pairwise (fun f g => ¬fs.SamePlace f.1 g.1) →
        ∀ f ∈ files, fs'.read f.1 = .ok f.2) := by
  induction files with
  | nil =>
    intro fs fs' written paths h
    cases h
    exact ⟨(List.append_nil _).symm, .refl _ fs, fun _ _ hf => nomatch hf⟩
  | cons f files ih =>
    obtain ⟨file, text⟩ := f
    intro fs fs' written paths h
    cases hw : fs.write file text with
    | error e =>
      rw [writeFiles_cons_error hw] at h
      cases h
    | ok fs₁ =>
      rw [writeFiles_cons_ok hw] at h
      obtain ⟨hpaths, htouch, hread⟩ := ih h
      have hfirst := write_touches hw
      refine ⟨by simp [hpaths], ?_, ?_⟩
      · exact (hfirst.mono (by simp)).trans (htouch.mono (by simp))
      · intro hapart f hf
        obtain ⟨hhead, htail⟩ := List.pairwise_cons.mp hapart
        have hsame (p q : Path) : fs₁.SamePlace p q ↔ fs.SamePlace p q := hfirst.dirs.samePlace
        obtain rfl | hf := List.mem_cons.mp hf
        · -- the files after the first one are at other places
          refine htouch.read (write_read hw) fun q hq => ?_
          obtain ⟨g, hg, hgq⟩ := List.mem_map.mp hq
          rw [hsame, ← hgq]
          exact hhead g hg
        · refine hread (htail.imp fun hne => ?_) f hf
          rwa [hsame]

/-- Files that could not all be written are taken away again. -/
theorem writeFiles_error (files : List (Path × String)) : ∀ {fs fs' written e},
    (writeFiles (m := StateM FileSystem) written files).run fs = (.error e, fs') →
    Removes (written ++ files.map (·.1)) fs fs' ∧ Clears written fs fs' := by
  induction files with
  | nil =>
    intro fs fs' written e h
    cases h
  | cons f files ih =>
    obtain ⟨file, text⟩ := f
    intro fs fs' written e h
    cases hw : fs.write file text with
    | error cause =>
      rw [writeFiles_cons_error hw] at h
      cases h
      obtain ⟨hremoves, hclears⟩ := removeAll_removes written fs
      exact ⟨hremoves.mono (List.subset_append_left _ _), hclears⟩
    | ok fs₁ =>
      rw [writeFiles_cons_ok hw] at h
      obtain ⟨hremoves, hclears⟩ := ih h
      have hfirst := write_touches hw
      have hclears := hclears.of_sameDirs hfirst.dirs
      refine ⟨⟨?_, ?_⟩, fun f hf => hclears f (List.mem_append_left _ hf)⟩
      · exact (hfirst.mono (by simp)).trans (hremoves.toTouches.mono (by simp))
      · intro place
        obtain hsame | hnone := hremoves.gone place
        · by_cases hp : fs.place file = .ok place
          · -- the file just written is among those that are taken away
            obtain ⟨_, hp', hne, _⟩ := write_ok hw
            cases hp.symm.trans hp'
            exact .inr (hclears file (by simp) place hp hne)
          · refine .inl (hsame.trans (hfirst.frame place fun q hq => ?_))
            rwa [List.mem_singleton.mp hq]
        · exact .inr hnone

end

/-! ## Turns -/

/-- One header of a run, with the files before and after it. -/
structure Turn where
  header : HeaderEntry
  before : FileSystem
  result : Except HeaderError (List Path)
  after : FileSystem

namespace Plan

def turn (plan : Plan) (h : HeaderEntry) (fs : FileSystem) : Turn :=
  let ran := (plan.emit (m := StateM FileSystem) h).run fs
  ⟨h, fs, ran.1, ran.2⟩

def turns (plan : Plan) : List HeaderEntry → FileSystem → List Turn
  | [], _ => []
  | h :: hs, fs => plan.turn h fs :: plan.turns hs (plan.turn h fs).after

def generated (plan : Plan) (t : Turn) : Except HeaderError Pxd.Output :=
  ((plan.generateHeader (m := StateM FileSystem) t.header).run t.before).1

/-- The files that a turn writes, if it comes to that. -/
def outputs (plan : Plan) (t : Turn) : List (Path × String) :=
  match plan.generated t with
  | .ok o => plan.files t.header o
  | .error _ => []

section
variable (plan : Plan) (h : HeaderEntry) (fs : FileSystem)

/-- Generating only reads. -/
theorem generateHeader_run :
    ((plan.generateHeader (m := StateM FileSystem) h).run fs).2 = fs := by
  unfold generateHeader generateFrom
  rw [StateT.run_bind, run_read]
  cases fs.read (h.treePath plan.base) with
  | error e => rfl
  | ok text =>
    simp only [Bind.bind]
    cases SourceUnit.ofText? text <;> rfl

theorem declarationsFile_apart :
    ¬fs.SamePlace (plan.declarationsFile h) (plan.constantsFile h) := by
  intro hsame
  obtain ⟨place, hd, hc⟩ := hsame
  have hpxd : (plan.declarationsFile h).text.toList.getLast? = some 'd' :=
    Path.join_end _ (Path.append_end h.outputName (by decide))
  have htxt : (plan.constantsFile h).text.toList.getLast? = some 't' :=
    Path.join_end _ (Path.append_end (headerStem h.header) (by decide))
  obtain ⟨name, hn, hnd⟩ := place_end hpxd (by decide) (by decide) hd
  obtain ⟨name', hn', hnt⟩ := place_end htxt (by decide) (by decide) hc
  obtain rfl : name = name' := Option.some.inj (hn.symm.trans hn')
  cases hnd.symm.trans hnt

theorem files_apart (o : Pxd.Output) :
    (plan.files h o).Pairwise fun f g => ¬fs.SamePlace f.1 g.1 := by
  unfold files
  split
  · simpa only [List.pairwise_pair] using plan.declarationsFile_apart h fs
  · exact List.pairwise_singleton ..

theorem emit_run : (plan.emit (m := StateM FileSystem) h).run fs =
    ((plan.turn h fs).result, (plan.turn h fs).after) := by
  unfold turn
  rfl

theorem emit_error {e : HeaderError} (hg : plan.generated (plan.turn h fs) = .error e) :
    (plan.emit (m := StateM FileSystem) h).run fs = (.error e, fs) := by
  have hrun : (plan.generateHeader (m := StateM FileSystem) h).run fs = (.error e, fs) :=
    Prod.ext hg (plan.generateHeader_run h fs)
  unfold emit
  rw [StateT.run_bind, hrun]
  rfl

theorem emit_ok {o : Pxd.Output} (hg : plan.generated (plan.turn h fs) = .ok o) :
    (plan.emit (m := StateM FileSystem) h).run fs =
      (writeFiles (m := StateM FileSystem) [] (plan.files h o)).run fs := by
  have hrun : (plan.generateHeader (m := StateM FileSystem) h).run fs = (.ok o, fs) :=
    Prod.ext hg (plan.generateHeader_run h fs)
  unfold emit
  rw [StateT.run_bind, hrun]
  rfl

theorem outputs_turn {o : Pxd.Output} (hg : plan.generated (plan.turn h fs) = .ok o) :
    plan.outputs (plan.turn h fs) = plan.files h o := by
  unfold outputs
  rw [hg]
  rfl

/-- What one turn does: it writes the files of its header, or it leaves none of them. -/
theorem turn_ends :
    (∃ o, (plan.turn h fs).result = .ok ((plan.files h o).map (·.1)) ∧
      plan.generated (plan.turn h fs) = .ok o ∧
      Touches ((plan.files h o).map (·.1)) fs (plan.turn h fs).after ∧
      ∀ f ∈ plan.files h o, (plan.turn h fs).after.read f.1 = .ok f.2) ∨
    (∃ e, (plan.turn h fs).result = .error e) ∧
      Removes ((plan.outputs (plan.turn h fs)).map (·.1)) fs (plan.turn h fs).after := by
  cases hg : plan.generated (plan.turn h fs) with
  | error e =>
    have hemit := plan.emit_error h fs hg
    rw [emit_run] at hemit
    obtain ⟨hresult, hafter⟩ := Prod.mk.inj hemit
    rw [hafter]
    exact .inr ⟨⟨e, hresult⟩, .refl _ fs, fun _ => .inl rfl⟩
  | ok o =>
    have hemit := plan.emit_ok h fs hg
    rw [emit_run] at hemit
    have hout := plan.outputs_turn h fs hg
    cases hr : (plan.turn h fs).result with
    | ok paths =>
      rw [hr] at hemit
      obtain ⟨hpaths, htouch, hread⟩ := writeFiles_ok _ hemit.symm
      exact .inl ⟨o, by rw [hpaths]; rfl, rfl, htouch, hread (plan.files_apart h fs o)⟩
    | error e =>
      rw [hr] at hemit
      refine .inr ⟨⟨e, rfl⟩, ?_⟩
      rw [hout]
      exact (writeFiles_error _ hemit.symm).1

theorem turn_touches :
    Touches ((plan.outputs (plan.turn h fs)).map (·.1)) fs (plan.turn h fs).after := by
  obtain ⟨o, _, hg, htouch, _⟩ | ⟨_, hremoves⟩ := plan.turn_ends h fs
  · rwa [plan.outputs_turn h fs hg]
  · exact hremoves.toTouches

/-! ## Runs -/

/-- The files behind the turns of some headers. -/
def ending (hs : List HeaderEntry) : FileSystem :=
  hs.foldl (fun fs h => (plan.turn h fs).after) fs

theorem turns_touch (hs : List HeaderEntry) : ∀ fs,
    Touches ((plan.turns hs fs).flatMap fun t => (plan.outputs t).map (·.1)) fs
      (plan.ending fs hs) := by
  induction hs with
  | nil => exact fun fs => .refl _ fs
  | cons h hs ih =>
    intro fs
    refine ((plan.turn_touches h fs).mono ?_).trans ((ih (plan.turn h fs).after).mono ?_)
    · exact List.subset_append_left _ _
    · exact List.subset_append_right _ _

/-- Each turn of a run starts where the ones before it ended. -/
theorem turns_split {t : Turn} {later : List Turn} : ∀ {earlier hs fs},
    plan.turns hs fs = earlier ++ t :: later →
    t = plan.turn t.header t.before ∧
      ∃ rest, later = plan.turns rest t.after ∧ plan.ending fs hs = plan.ending t.after rest := by
  intro earlier
  induction earlier with
  | nil =>
    intro hs fs h
    cases hs with
    | nil => cases h
    | cons h' hs =>
      obtain ⟨ht, hlater⟩ := List.cons.inj h
      subst ht
      exact ⟨rfl, hs, hlater.symm, rfl⟩
  | cons first earlier ih =>
    intro hs fs h
    cases hs with
    | nil => cases h
    | cons h' hs =>
      obtain ⟨ht, rest, hlater, hend⟩ := ih (List.cons.inj h).2
      exact ⟨ht, rest, hlater, hend⟩

theorem forHeaders_run (hs : List HeaderEntry) : ∀ fs,
    (hs.mapM fun h => (do return (h, ← plan.emit h) :
        StateM FileSystem (HeaderEntry × Except HeaderError (List Path)))).run fs =
      ((plan.turns hs fs).map fun t => (t.header, t.result), plan.ending fs hs) := by
  induction hs with
  | nil => exact fun _ => rfl
  | cons h hs ih =>
    intro fs
    rw [List.mapM_cons, StateT.run_bind, StateT.run_bind, emit_run]
    show (StateT.run (hs.mapM _ >>= fun _ => _ : StateM FileSystem _)
      (plan.turn h fs).after) = _
    rw [StateT.run_bind, ih]
    rfl

theorem generate_error {e : OsError} {start : FileSystem}
    (hm : (Files.makeDirs (m := StateM FileSystem) plan.outputDir).run fs = (.error e, start)) :
    (plan.generate (m := StateM FileSystem)).run fs =
      (.failure s!"creating {plan.outputDir.text}: {e.message}", start) := by
  unfold generate
  rw [StateT.run_bind, hm]
  rfl

theorem generate_ok {start : FileSystem}
    (hm : (Files.makeDirs (m := StateM FileSystem) plan.outputDir).run fs = (.ok (), start)) :
    (plan.generate (m := StateM FileSystem)).run fs =
      (generateReport ((plan.turns plan.headers start).map fun t => (t.header, t.result)),
        plan.ending start plan.headers) := by
  unfold generate
  rw [StateT.run_bind, hm]
  show (StateT.run (plan.forHeaders plan.emit >>= fun results => _ : StateM FileSystem Report)
    start) = _
  rw [StateT.run_bind, forHeaders, forHeaders_run]
  rfl

end

end Plan

/-- How a turn ends up behind a run: with its own texts in its files, unless a later turn writes
to the same place, or with nothing. -/
def Turn.Keeps (plan : Plan) (t : Turn) (later : List Turn) (last : FileSystem) : Prop :=
  match t.result with
  | .ok paths => ∃ o, plan.generated t = .ok o ∧ paths = (plan.files t.header o).map (·.1) ∧
    ∀ f ∈ plan.files t.header o,
      (∀ k ∈ later, ∀ g ∈ plan.outputs k, ¬last.SamePlace f.1 g.1) → last.read f.1 = .ok f.2
  | .error _ => ∀ place, t.after.find? place = t.before.find? place ∨
    t.after.find? place = none ∧ ∃ f ∈ plan.outputs t, t.before.place f.1 = .ok place

namespace Plan

theorem turn_keeps (plan : Plan) {hs : List HeaderEntry} {fs : FileSystem}
    {earlier later : List Turn}
    {t : Turn} (h : plan.turns hs fs = earlier ++ t :: later) :
    t.Keeps plan later (plan.ending fs hs) := by
  obtain ⟨ht, rest, hlater, hend⟩ := plan.turns_split h
  have hrest := plan.turns_touch rest t.after
  rw [← hlater, ← hend] at hrest
  have hturn := plan.turn_ends t.header t.before
  rw [← ht] at hturn
  unfold Turn.Keeps
  obtain ⟨o, hresult, hg, htouch, hread⟩ | ⟨⟨e, hresult⟩, hremoves⟩ := hturn
  · rw [hresult]
    refine ⟨o, hg, rfl, fun f hf hapart => hrest.read (hread f hf) fun q hq => ?_⟩
    obtain ⟨k, hk, hq⟩ := List.mem_flatMap.mp hq
    obtain ⟨g, hgk, rfl⟩ := List.mem_map.mp hq
    rw [← hrest.dirs.samePlace]
    exact hapart k hk g hgk
  · rw [hresult]
    intro place
    by_cases hp : ∃ f ∈ plan.outputs t, t.before.place f.1 = .ok place
    · exact (hremoves.gone place).imp id fun hnone => ⟨hnone, hp⟩
    · refine .inl (hremoves.frame place fun q hq hqp => hp ?_)
      obtain ⟨f, hf, rfl⟩ := List.mem_map.mp hq
      exact ⟨f, hf, hqp⟩

/-- What a run leaves. Where the output directory cannot be made nothing is written. Otherwise
the headers get their turns in order, the report is of their results, and each turn keeps its
files if no later one comes upon them. -/
theorem generate_keeps (plan : Plan) (fs : FileSystem) :
    let made := (Files.makeDirs (m := StateM FileSystem) plan.outputDir).run fs
    let ran := (plan.generate (m := StateM FileSystem)).run fs
    SameFiles fs made.2 ∧
      (∀ e, made.1 = .error e → ran.2 = made.2) ∧
      (made.1 = .ok () →
        ran.1 = generateReport
          ((plan.turns plan.headers made.2).map fun t => (t.header, t.result)) ∧
        ∀ earlier t later, plan.turns plan.headers made.2 = earlier ++ t :: later →
          t.Keeps plan later ran.2) := by
  refine ⟨makeDirs_keeps plan.outputDir fs, ?_⟩
  cases hm : (Files.makeDirs (m := StateM FileSystem) plan.outputDir).run fs with
  | mk made start =>
    cases made with
    | error e =>
      rw [plan.generate_error fs hm]
      exact ⟨fun _ _ => rfl, nofun⟩
    | ok _ =>
      rw [plan.generate_ok fs hm]
      exact ⟨nofun, fun _ => ⟨rfl, fun _ _ _ h => plan.turn_keeps h⟩⟩

end Plan

theorem Turn.Keeps.read {plan : Plan} {t : Turn} {later : List Turn} {last : FileSystem}
    (hk : t.Keeps plan later last) (hok : t.result.toOption.isSome = true) {f : Path × String}
    (hf : f ∈ plan.outputs t)
    (hapart : ∀ k ∈ later, ∀ g ∈ plan.outputs k, ¬last.SamePlace f.1 g.1) :
    last.read f.1 = .ok f.2 := by
  unfold Turn.Keeps at hk
  cases hr : t.result with
  | error e =>
    rw [hr] at hok
    cases hok
  | ok paths =>
    rw [hr] at hk
    obtain ⟨o, hg, _, hread⟩ := hk
    unfold Plan.outputs at hf
    rw [hg] at hf
    exact hread f hf hapart

theorem Plan.first_kept {plan : Plan} {start last : FileSystem}
    (hk : ∀ earlier t later, plan.turns plan.headers start = earlier ++ t :: later →
      t.Keeps plan later last) {h : HeaderEntry} {hs : List HeaderEntry}
    (hp : plan.headers = h :: hs) (hok : (plan.turn h start).result.toOption.isSome = true)
    {f : Path × String} (hf : f ∈ plan.outputs (plan.turn h start))
    (hapart : ∀ k ∈ plan.turns hs (plan.turn h start).after, ∀ g ∈ plan.outputs k,
      ¬last.SamePlace f.1 g.1) : last.read f.1 = .ok f.2 := by
  have hfirst : plan.turns plan.headers start =
      [] ++ plan.turn h start :: plan.turns hs (plan.turn h start).after := by
    rw [hp]
    rfl
  exact (hk _ _ _ hfirst).read hok hf hapart

theorem eq_ok_of_isSome {ε : Type} {x : Except ε Unit} (h : x.toOption.isSome = true) :
    x = .ok () := by
  cases x with
  | error e => cases h
  | ok _ => rfl

namespace Sample

/-- The tree of a single forward declaration. -/
def tree (tag : String) : String :=
  "\x7b\"file\":\"\",\"children\":[\x7b\"kind\":\"Struct\",\"name\":\"" ++ tag ++ "\"\x7d]\x7d"

/-- Two trees, and a directory where the constants of `bar.h` belong. -/
def disk : FileSystem :=
  ⟨[(["p"], .directory), (["p", "foo.json"], .file (tree "foo")),
    (["p", "bar.json"], .file (tree "bar")), (["p", "pxd"], .directory),
    (["p", "pxd", "bar_constants.txt"], .directory)]⟩

def twoHeaders (externName : Option String) : Plan :=
  ⟨⟨"/p"⟩, ⟨"/p/pxd"⟩, ⟨true, true, false⟩, [⟨"foo.json", "foo.h", none⟩,
    ⟨"bar.json", "bar.h", externName⟩]⟩

end Sample

/-- `foo.h` keeps its file although `bar.h` fails. -/
theorem generate_keeps_sample :
    (((Sample.twoHeaders none).generate (m := StateM FileSystem)).run Sample.disk).2.read
      ⟨"/p/pxd/_foo.pxd"⟩ = .ok "cdef extern from \"foo.h\":\n    cdef struct foo\n" := by
  have hmade : ((Files.makeDirs (m := StateM FileSystem) (Sample.twoHeaders none).outputDir).run
      Sample.disk).1 = .ok () := eq_ok_of_isSome (by decide +kernel)
  have hk := (((Sample.twoHeaders none).generate_keeps Sample.disk).2.2 hmade).2
  have hread := Plan.first_kept hk rfl (by decide +kernel)
    (f := (⟨"/p/pxd/_foo.pxd"⟩, "cdef extern from \"foo.h\":\n    cdef struct foo\n"))
    (by decide +kernel) (by decide +kernel)
  exact hread

/-- Both headers write `_foo.pxd`. The second one fails and takes away the file of the first,
which is reported as written. -/
theorem shared_file_lost :
    let plan := Sample.twoHeaders (some "_foo")
    let ran := (plan.generate (m := StateM FileSystem)).run Sample.disk
    "Wrote /p/pxd/_foo.pxd" ∈ ran.1.out ∧
      ¬∀ t ∈ plan.turns plan.headers Sample.disk, t.result.toOption.isSome →
        ∀ f ∈ plan.outputs t, (ran.2.read f.1).toOption = some f.2 := by
  decide +kernel

end CythonDecls
