import CythonDecls.Project.Run
import CythonDecls.Proofs.FileSystem.Changes
import CythonDecls.Proofs.Toml.Lines

/-!
# New projects

The configuration of a new project quotes the name of the project but escapes nothing
in it. It loads under that name when every character of the name stands for itself
between quotes, and under no other condition.
-/

namespace CythonDecls

open Toml Reader FileSystem

/-! ## The lines -/

def templateLines (name : List Char) : List Line := [
  .header "project".toList,
  .entry "name".toList ('"' :: (name ++ ['"'])) (.string (.ofList name)),
  .entry "output_dir".toList ('"' :: ("pxd".toList ++ ['"'])) (.string "pxd"),
  .blank,
  .header "render".toList,
  .entry "extern_block".toList "true".toList (.boolean true),
  .entry "emit_constants".toList "false".toList (.boolean false),
  .entry "filter_to_header".toList "false".toList (.boolean false),
  .blank,
  .comment " [[headers]]".toList,
  .comment (" tree = \"trees/".toList ++ name ++ ".json\"".toList),
  .comment (" header = \"".toList ++ name ++ ".h\"".toList)]

def templateText (name : List Char) : List Char := (templateLines name).flatMap Line.text

theorem toList_template (name : String) :
    (Config.template name).toList = templateText name.toList := by
  simp [Config.template, templateText, templateLines, Line.text, toString]

/-- The name is on the second line, and the third one begins with an `o`. -/
theorem templateText_eq (name : List Char) : ∃ more, templateText name =
    (Line.header "project".toList).text ++ ("name".toList ++ (' ' :: '=' :: ' ' :: '"' ::
      (name ++ '"' :: '\n' :: 'o' :: more))) := by
  simp [templateText, templateLines, Line.text]

theorem plain_templateLines {name : List Char} (h : ∀ c ∈ name, Stands c) :
    ∀ l ∈ templateLines name, l.Plain := by
  have hcomment {front back : List Char} (hf : front.all isPlain = true)
      (hb : back.all isPlain = true) : (Line.comment (front ++ name ++ back)).Plain := by
    intro c hc
    rw [List.mem_append, List.mem_append] at hc
    obtain (hc | hc) | hc := hc
    · exact List.all_eq_true.mp hf c hc
    · exact (h c hc).1
    · exact List.all_eq_true.mp hb c hc
  have hkey {key : String} (hk : BareKey key.toList) : (Line.header key.toList).Plain := hk
  simp only [templateLines, List.forall_mem_cons]
  exact ⟨hkey (by decide), ⟨by decide, .string h⟩, ⟨by decide, .string (stands_of_all (by decide))⟩,
    trivial, hkey (by decide), ⟨by decide, .true⟩, ⟨by decide, .false⟩,
      ⟨by decide, .false⟩, trivial,
    show ∀ c ∈ " [[headers]]".toList, isPlain c = true from List.all_eq_true.mp (by decide),
    hcomment (by decide) (by decide), hcomment (by decide) (by decide), nofun⟩

theorem entries_template (name : List Char) :
    ((templateLines name).foldlM Line.add ⟨[], []⟩).map (·.entries) = some [
      ("project", .table .header [("name", .string (.ofList name)), ("output_dir", .string "pxd")]),
      ("render", .table .header
        [("extern_block", .boolean true), ("emit_constants", .boolean false),
        ("filter_to_header", .boolean false)])] := rfl

def Config.initial (name : String) : Config := ⟨name, "pxd", .default, []⟩

theorem ofText?_template {name : String} (h : ∀ c ∈ name.toList, Stands c) :
    Config.ofText? (Config.template name) = some (.initial name) := by
  unfold Config.ofText?
  rw [read?_lines (plain_templateLines h) (toList_template name), entries_template,
    String.ofList_toList]
  rfl

/-! ## Reading it back -/

theorem ofText?_template_eq (name : String) : Config.ofText? (Config.template name) =
    ((lines ((templateText name.toList).length + 1) ⟨[], []⟩).run (templateText name.toList)).map
      (·.1.entries) >>= Config.ofEntries? := by
  have hmark : (Config.template name).toList.head? ≠ some '\ufeff' := by
    obtain ⟨more, hmore⟩ := templateText_eq name.toList
    rw [toList_template, hmore]
    exact fun he => absurd (Option.some.inj he) (by decide)
  unfold Config.ofText?
  rw [read?_eq hmark, toList_template]

theorem name_of_project? {v : Value} {name dir s : String}
    (h : Config.project? v = some (name, dir))
    (hs : v.text? ["name"] = some s) : name = s := by
  obtain ⟨fields, hfields, h⟩ := Option.bind_eq_some_iff.mp h
  obtain ⟨_, hname, h⟩ := Option.bind_eq_some_iff.mp h
  obtain ⟨_, -, h⟩ := Option.bind_eq_some_iff.mp h
  cases h
  cases v with
  | table o es =>
    cases hfields
    exact Option.some.inj (hname.symm.trans hs)
  | _ => cases hs

theorem name_of_ofEntries? {es : Entries} {c : Config} {s : String}
    (h : Config.ofEntries? es = some c)
    (hs : es.lookup "project" >>= Value.text? ["name"] = some s) : c.name = s := by
  obtain ⟨v, hv, hs⟩ := Option.bind_eq_some_iff.mp hs
  obtain ⟨_, hproject, h⟩ := Option.bind_eq_some_iff.mp h
  obtain ⟨_, -, h⟩ := Option.bind_eq_some_iff.mp h
  obtain ⟨_, -, h⟩ := Option.bind_eq_some_iff.mp h
  cases h
  rw [Entries.required, hv] at hproject
  exact name_of_project? hproject hs

theorem string_of_ofText? {name : String} {c : Config}
    (h : Config.ofText? (Config.template name) = some c) : ∃ more rest,
      (string '"').run ('"' :: (name.toList ++ '"' :: '\n' :: 'o' :: more)) =
        some (c.name, rest) := by
  rw [ofText?_template_eq] at h
  obtain ⟨es, hes, hc⟩ := Option.bind_eq_some_iff.mp h
  obtain ⟨more, hmore⟩ := templateText_eq name.toList
  obtain ⟨n, hn⟩ : ∃ n, (templateText name.toList).length = n + 1 :=
    Nat.exists_eq_add_one.mpr (by rw [hmore]; exact Nat.zero_lt_succ _)
  have hheader : (Line.header "project".toList).Plain := show BareKey "project".toList by decide
  have hproject : (Line.header "project".toList).add ⟨[], []⟩ =
      some ⟨[("project", .table .header [])], ["project"]⟩ := rfl
  rw [hn, hmore, lines_line hheader, hproject, Option.bind_some] at hes
  obtain ⟨⟨last, rest⟩, hlines, rfl⟩ := Option.map_eq_some_iff.mp hes
  -- whatever the lines behind it turn out to be, the name on the second line stays
  obtain ⟨s, mid, es, hs, hes, hkeeps⟩ := lines_string (by decide) hlines
  cases hes
  rw [name_of_ofEntries? hc (hkeeps "project" ["name"] s rfl)]
  exact ⟨more, mid, hs⟩

theorem stands_of_ofText? {name : String} {c : Config}
    (h : Config.ofText? (Config.template name) = some c) (hc : c.name = name) :
    ∀ c ∈ name.toList, Stands c := by
  obtain ⟨more, rest, hs⟩ := string_of_ofText? h
  have ho : Inert 'o' := ⟨by decide, by decide, by decide, by decide⟩
  have hname : c.name = String.ofList name.toList := by rw [hc, String.ofList_toList]
  rw [hname] at hs
  exact stands_of_string ho hs

/-! ## Starting a project -/

theorem startProject_read {dir : Path} {given : Option String} {fs fs' : FileSystem}
    {report : Report}
    (h : (startProject (m := StateM FileSystem) dir given).run fs = (report, fs'))
    (hs : report.status = 0) : fs'.read (dir.join configFile) =
      .ok (Config.template (given.getD (dir.fileName?.getD "pxd"))) := by
  -- wherever the run stops early, its status says so
  have hfailure {message : String} (he : report = .failure message) : False := by
    rw [he] at hs
    cases hs
  unfold startProject at h
  dsimp only at h
  rw [run_bind_of_run (run_kindOf fs _)] at h
  by_cases hkind : (fs.kindOf (dir.join configFile)).isSome = true
  · rw [if_pos hkind] at h
    cases h
    exact (hfailure rfl).elim
  · rw [if_neg hkind] at h
    obtain ⟨made, fs₁, hmade⟩ : ∃ made fs₁,
      (Files.makeDirs (m := StateM FileSystem) dir).run fs = (made, fs₁) := ⟨_, _, rfl⟩
    rw [run_bind_of_run hmade] at h
    cases made with
    | error e =>
      cases h
      exact (hfailure rfl).elim
    | ok _ =>
      dsimp only at h
      cases hw : fs₁.write (dir.join configFile)
        (Config.template (given.getD (dir.fileName?.getD "pxd"))) with
      | error e =>
        rw [run_bind_of_run (run_write_error hw)] at h
        cases h
        exact (hfailure rfl).elim
      | ok fs₂ =>
        rw [run_bind_of_run (run_write_ok hw)] at h
        cases h
        exact write_read hw

theorem load_iff {p : Path} {fs : FileSystem} {text : String} (h : fs.read p = .ok text)
    {c : Config} :
    ((Config.load (m := StateM FileSystem) p).run fs).1 = .ok c ↔ Config.ofText? text = some c := by
  unfold Config.load
  rw [run_bind_of_run (run_read fs p), h]
  dsimp only
  cases Config.ofText? text with
  | none => exact ⟨nofun, nofun⟩
  | some c' =>
    constructor <;> intro he
    · cases he
      rfl
    · cases he
      rfl

/-- A new configuration loads under the name of its project exactly when every character of
the name stands for itself, and then it is as it is meant to be. -/
theorem template_loads_iff (name : String) :
    ((∃ c, Config.ofText? (Config.template name) = some c ∧ c.name = name) ↔
        ∀ c ∈ name.toList, Stands c) ∧
      (Config.ofText? (Config.template name) = some (.initial name) ↔
        ∀ c ∈ name.toList, Stands c) ∧
      ∀ (dir : Path) (given : Option String) (fs fs' : FileSystem) (report : Report),
        (startProject (m := StateM FileSystem) dir given).run fs = (report, fs') →
        report.status = 0 → given.getD (dir.fileName?.getD "pxd") = name →
        (((Config.load (m := StateM FileSystem) (dir.join configFile)).run fs').1 =
            .ok (.initial name) ↔ ∀ c ∈ name.toList, Stands c) := by
  have htext : Config.ofText? (Config.template name) = some (.initial name) ↔
      ∀ c ∈ name.toList, Stands c :=
    ⟨fun h => stands_of_ofText? h rfl, ofText?_template⟩
  refine ⟨⟨?_, fun h => ⟨_, ofText?_template h, rfl⟩⟩, htext, ?_⟩
  · intro h
    obtain ⟨c, hc, hname⟩ := h
    exact stands_of_ofText? hc hname
  · intro dir given fs fs' report hrun hs hname
    have hread := startProject_read hrun hs
    rw [hname] at hread
    rw [load_iff hread, htext]

/-- A project in `/libfoo`, with no name given. -/
theorem template_loads_libfoo :
    let ran := (startProject (m := StateM FileSystem) ⟨"/libfoo"⟩ none).run .empty
    ran.1.status = 0 ∧
      ((Config.load (m := StateM FileSystem) (Path.join ⟨"/libfoo"⟩ configFile)).run ran.2).1 =
        .ok (.initial "libfoo") := by
  have hstatus : ((startProject (m := StateM FileSystem) ⟨"/libfoo"⟩ none).run .empty).1.status =
      0 := by
    decide +kernel
  have hloads := (template_loads_iff "libfoo").2.2 ⟨"/libfoo"⟩ none .empty _ _ rfl hstatus
    (by decide +kernel)
  exact ⟨hstatus, hloads.mpr (stands_of_all (by decide))⟩

/-- A quote ends the name too early, and a backslash begins an escape. -/
theorem template_quote_lost : Config.ofText? (Config.template "a\"b") = none ∧
    Config.ofText? (Config.template "a\\tb") = some (.initial "a\tb") := by
  rw [ofText?_template_eq, ofText?_template_eq]
  decide +kernel

end CythonDecls
