import CythonDecls.Proofs.Json.Reading
import CythonDecls.Proofs.Tree.Codecs

/-!
# Units survive printing

A unit whose JSON nests no deeper than a reader takes is read back from its
printed form. Every unit that was read is one of them, whatever text it was
read from: what that text left out is written without nesting deeper.
-/

namespace CythonDecls.SourceUnit

open Json

/-- A unit without children is written with an empty list of them. -/
theorem layout : Layout ["file", "children"]
    (fun fs => do return ⟨← fs.required "file" string?,
      ← fs.defaulted "children" [] (list? Item.ofJson?)⟩)
    (fun i : String × List Item × Unit => SourceUnit.mk i.1 i.2.1)
    (fun i => [("file", text i.1), ("children", array (i.2.1.map Item.toJson))])
    (depthLimit + 2) 1 :=
  .field (.required "file" .string) fun file =>
    .field (.defaulted "children" [] Item.codec.list (Nat.le_refl _)) fun items =>
    .pure (SourceUnit.mk file items)

variable {u : SourceUnit}

theorem sound_toJson (hd : u.toJson.depth ≤ depthLimit) : u.toJson.sound = true :=
  layout.sound_record (i := (u.file, u.items, ())) (Nat.le_trans hd (Nat.le_add_right _ 3))

theorem ofJson?_toJson (hd : u.toJson.depth ≤ depthLimit) : ofJson? u.toJson = some u := by
  have hreadable : u.toJson.readable = true := by
    rw [readable, Bool.and_eq_true, decide_eq_true_eq]
    exact ⟨sound_toJson hd, hd⟩
  have hkept : kept u.toJson = u.toJson := rfl
  rw [ofJson?, hkept]
  simp only [hreadable, guard, if_true]
  exact layout.reads_record (by decide) (i := (u.file, u.items, ()))
    (Nat.le_trans hd (Nat.le_add_right _ 3))

theorem ofText?_print (hd : u.toJson.depth ≤ depthLimit) : ofText? u.print = some u := by
  rw [ofText?, print, read?_pretty (sound_toJson hd)]
  exact ofJson?_toJson hd

theorem depth_ofJson? {v : Json} (h : ofJson? v = some u) : u.toJson.depth ≤ depthLimit := by
  obtain ⟨_, hguard, h⟩ := Option.bind_eq_some_iff.mp h
  obtain ⟨fs, hfs, h⟩ := Option.bind_eq_some_iff.mp h
  have hreadable := (Option.guard_eq_some' _).mp hguard
  rw [readable, Bool.and_eq_true, decide_eq_true_eq] at hreadable
  obtain ⟨i, rfl, hi⟩ := layout.shallow fs u h
  have hfound := Nat.lt_of_lt_of_le (fields?_depth hfs) hreadable.2
  have hmax : max 1 (fieldsDepth fs) ≤ 126 := Nat.max_le.mpr ⟨by decide, Nat.le_of_lt_succ hfound⟩
  exact depth_record_le.mpr fun f hf => Nat.le_trans (hi f hf) hmax

/-- Every unit that nests no deeper than a reader takes is read back from its printed
form, and every unit that is read from any text is one of these. -/
theorem reads_printed :
    (∀ u : SourceUnit, u.toJson.depth ≤ depthLimit → ofText? u.print = some u) ∧
    ∀ (s : String) (u : SourceUnit), ofText? s = some u →
      u.toJson.depth ≤ depthLimit ∧ ofText? u.print = some u := by
  constructor
  · exact fun u hd => ofText?_print hd
  · intro s u h
    obtain ⟨v, _, hv⟩ := Option.bind_eq_some_iff.mp h
    have hd := depth_ofJson? hv
    exact ⟨hd, ofText?_print hd⟩

/-- A struct whose field names its place, and an enum that is evaluated. -/
def sample : SourceUnit :=
  ⟨"wire.h", [
    .container .struct (.body (some "frame") [
      (Declaration.named "rows" (.array (.pointer (.word "char")) (some 16))).at
        ⟨"wi\"re\n.h", 7⟩]),
    .enumeration (.body none [
      ⟨"RAW", some (.binary .shl (.literal .integer "1") (.identifier "BASE")), none⟩])]⟩

theorem reads_printed_sample :
    (sample.toJson.depth ≤ depthLimit ∧ ofText? sample.print = some sample) ∧
    ofText? "[\"a.h\"]" = some ⟨"a.h", []⟩ ∧
    ofText? (SourceUnit.mk "a.h" []).print = some ⟨"a.h", []⟩ :=
  have hread : ofText? "[\"a.h\"]" = some ⟨"a.h", []⟩ := rfl
  ⟨⟨by decide, reads_printed.1 sample (by decide)⟩, hread, (reads_printed.2 _ _ hread).2⟩

end CythonDecls.SourceUnit
