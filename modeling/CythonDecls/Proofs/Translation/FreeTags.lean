import CythonDecls.Translation.State
import Mathlib.Data.List.Nodup
import Mathlib.Data.List.Perm.Subperm

/-!
# Free tags

A made-up tag is the first of `base`, `base_2`, `base_3` and so on that is not
taken. The candidates are all distinct, and there is one more of them than
there are taken tags, so one of them is free.
-/

namespace CythonDecls.Translator

/-! ## Candidates -/

theorem candidate_succ (base : String) (n : Nat) :
    candidate base (n + 1) = base ++ ("_" ++ (n + 2).repr) := by
  rw [← String.append_assoc]
  rfl

theorem candidate_zero_ne (base : String) (n : Nat) : base ≠ candidate base (n + 1) := by
  intro he
  have hlen := congrArg String.length he
  simp [candidate_succ] at hlen

theorem candidate_inj {base : String} {m n : Nat} (h : candidate base m = candidate base n) :
    m = n := by
  cases m with
  | zero =>
    cases n with
    | zero => rfl
    | succ n => exact absurd h (candidate_zero_ne base n)
  | succ m =>
    cases n with
    | zero => exact absurd h.symm (candidate_zero_ne base m)
    | succ n =>
      rw [candidate_succ, candidate_succ, String.append_right_inj, String.append_right_inj] at h
      have hread := congrArg (fun s => Nat.ofDigitChars 10 s.toList 0) h
      simpa [Nat.toList_repr, Nat.ofDigitChars_ten_toDigits] using hread

/-! ## What is taken -/

variable (t : Translator)

def taken : List String :=
  t.invented ++ t.structs.entries.map (·.1) ++ t.unions.entries.map (·.1)
    ++ t.enums.entries.map (·.1)

theorem length_taken : t.taken.length = t.takenBound := by
  simp [taken, takenBound, Nat.add_assoc]

theorem contains_iff {table : Table String Handle} {tag : String} :
    table.contains tag = true ↔ tag ∈ table.entries.map (·.1) := by
  obtain ⟨entries⟩ := table
  simp only [Table.contains, Table.find?]
  induction entries with
  | nil => simp
  | cons e entries ih =>
    obtain ⟨key, h⟩ := e
    by_cases hk : tag = key
    · simp [hk]
    · simp only [List.lookup_cons, List.map_cons, List.mem_cons, hk, false_or, ← ih,
        beq_false_of_ne hk]

theorem isTaken_iff {tag : String} : t.isTaken tag = true ↔ tag ∈ t.taken := by
  simp only [isTaken, taken, Bool.or_eq_true, contains_iff, List.contains_iff_mem, List.mem_append]

/-- More distinct candidates than taken tags: one is free. -/
theorem exists_free (base : String) :
    ∃ n < t.takenBound + 1, t.isTaken (candidate base n) = false := by
  by_contra hall
  have hsub : (List.range (t.takenBound + 1)).map (candidate base) ⊆ t.taken := by
    intro tag htag
    obtain ⟨n, hn, rfl⟩ := List.mem_map.mp htag
    refine t.isTaken_iff.mp (Bool.of_not_eq_false fun hfree => ?_)
    exact hall ⟨n, List.mem_range.mp hn, hfree⟩
  have hnodup : ((List.range (t.takenBound + 1)).map (candidate base)).Nodup :=
    List.Nodup.map (fun _ _ => candidate_inj) List.nodup_range
  have hlen := (hnodup.subperm hsub).length_le
  rw [List.length_map, List.length_range, length_taken] at hlen
  omega

theorem freeTag_first (base : String) : ∃ n, t.freeTag base = candidate base n ∧
    t.isTaken (candidate base n) = false ∧ ∀ m < n, t.isTaken (candidate base m) = true := by
  obtain ⟨k, hk, hfree⟩ := t.exists_free base
  unfold freeTag
  rw [List.find?_map]
  cases hf : (List.range (t.takenBound + 1)).find? ((!t.isTaken ·) ∘ candidate base) with
  | none =>
    have htaken := List.find?_eq_none.mp hf k (List.mem_range.mpr hk)
    simp [hfree] at htaken
  | some n =>
    obtain ⟨hn, -, hfirst⟩ := List.find?_range_eq_some.mp hf
    exact ⟨n, rfl, by simpa using hn, fun m hm => by simpa using hfirst m hm⟩

theorem isTaken_freeTag (base : String) : t.isTaken (t.freeTag base) = false := by
  obtain ⟨n, he, hfree, -⟩ := t.freeTag_first base
  rwa [he]

end CythonDecls.Translator
