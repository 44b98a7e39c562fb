import CythonDecls.Proofs.Constant.TwosComplement
import CythonDecls.Translation.Enumerators

/-!
# Numbering of enumerators

An enumerator counts from the last one that has an expression, itself
included, and from zero at the first if there is none. The loop only keeps the
value before the current one, so what it counts from is an invariant over
the list that is left.
-/

namespace CythonDecls

open Constant

namespace Enumerator

/-- The expression stands for a whole number, if there is one. -/
def IsIntegral (e : Enumerator) : Prop := ∀ x, e.value = some x → ∃ n, evaluateIntegral x = .ok n

/-- The place `i` counts from the place `j`, where an expression has the value `n`. -/
structure CountsFrom (es : List Enumerator) (i j : Nat) (n : Int64) : Prop where
  le : j ≤ i
  given : ∃ e x, es[j]? = some e ∧ e.value = some x ∧ evaluateIntegral x = .ok n
  last : ∀ k e, j < k → k ≤ i → es[k]? = some e → e.value = none

/-- No expression stands at the place `i` or before it. -/
def CountsFromStart (es : List Enumerator) (i : Nat) : Prop :=
  ∀ k e, k ≤ i → es[k]? = some e → e.value = none

/-- The first enumerator with an expression that has no whole value, and why it has none. -/
inductive FirstFailing : List Enumerator → String → Error → Prop where
  | here {e : Enumerator} {es : List Enumerator} {x : ConstExpr} {source : Error}
    (hx : e.value = some x) (hs : evaluateIntegral x = .error source) :
    FirstFailing (e :: es) e.name source
  | behind {e : Enumerator} {es : List Enumerator} {name : String} {source : Error}
    (he : e.IsIntegral) (rest : FirstFailing es name source) : FirstFailing (e :: es) name source

/-! ## One enumerator -/

variable {e : Enumerator} {previous value : Int64} {err : TranslateError}

theorem evaluate_ok_iff : e.evaluate previous = .ok value ↔
    e.value = none ∧ value = previous + 1 ∨
      ∃ x, e.value = some x ∧ evaluateIntegral x = .ok value := by
  unfold evaluate
  cases hx : e.value with
  | none => simp [eq_comm]
  | some x =>
    cases hn : evaluateIntegral x with
    | ok n => simp [hn]
    | error source => simp [hn]

theorem evaluate_error_iff : e.evaluate previous = .error err ↔
    ∃ x source, e.value = some x ∧ evaluateIntegral x = .error source ∧
      err = .constant e.name source := by
  unfold evaluate
  cases hx : e.value with
  | none => simp
  | some x =>
    cases hn : evaluateIntegral x with
    | ok n => simp [hn]
    | error source => simp [hn, eq_comm]

theorem isIntegral_iff (previous : Int64) :
    e.IsIntegral ↔ ∃ value, e.evaluate previous = .ok value := by
  unfold IsIntegral
  cases hx : e.value with
  | none => simp [evaluate_ok_iff, hx]
  | some x => simp [evaluate_ok_iff, hx]

theorem CountsFromStart.zero {es : List Enumerator} (he : e.value = none) :
    CountsFromStart (e :: es) 0 := by
  intro k d hk hd
  obtain rfl := Nat.le_zero.mp hk
  cases hd
  exact he

theorem CountsFromStart.succ {es : List Enumerator} {i : Nat} (he : e.value = none)
    (h : CountsFromStart es i) : CountsFromStart (e :: es) (i + 1) := by
  intro k d hk hd
  cases k with
  | zero =>
    cases hd
    exact he
  | succ k => exact h k d (Nat.le_of_succ_le_succ hk) hd

theorem CountsFrom.zero {es : List Enumerator} {x : ConstExpr} (hx : e.value = some x)
    (hn : evaluateIntegral x = .ok value) : CountsFrom (e :: es) 0 0 value where
  le := Nat.le_refl 0
  given := ⟨e, x, rfl, hx, hn⟩
  last _ _ hlt hle := absurd hlt (Nat.not_lt.mpr hle)

theorem CountsFrom.succ {es : List Enumerator} {i j : Nat} (h : CountsFrom es i j value) :
    CountsFrom (e :: es) (i + 1) (j + 1) value where
  le := Nat.succ_le_succ h.le
  given := h.given
  last k d hlt hle hd := by
    cases k with
    | zero => exact absurd hlt (Nat.not_lt_zero _)
    | succ k => exact h.last k d (Nat.lt_of_succ_lt_succ hlt) (Nat.le_of_succ_le_succ hle) hd

theorem CountsFrom.first {es : List Enumerator} {i : Nat} {x : ConstExpr} (hx : e.value = some x)
    (hn : evaluateIntegral x = .ok value) (h : CountsFromStart es i) :
    CountsFrom (e :: es) (i + 1) 0 value where
  le := Nat.zero_le _
  given := ⟨e, x, rfl, hx, hn⟩
  last k d hlt hle hd := by
    cases k with
    | zero => exact absurd hlt (Nat.lt_irrefl 0)
    | succ k => exact h k d (Nat.le_of_succ_le_succ hle) hd

end Enumerator

open Enumerator

/-! ## The loop -/

variable {e : Enumerator} {es : List Enumerator} {previous : Int64} {values : List EnumValue}
  {err : TranslateError}

theorem enumValuesFrom_cons_ok : enumValuesFrom previous (e :: es) = .ok values ↔
    ∃ value rest, e.evaluate previous = .ok value ∧ enumValuesFrom value es = .ok rest ∧
      values = ⟨e.name, value⟩ :: rest := by
  rw [enumValuesFrom]
  cases hv : e.evaluate previous with
  | error err => simp [bind, Except.bind]
  | ok value =>
    cases hr : enumValuesFrom value es with
    | error err => simp [hr, bind, Except.bind]
    | ok rest => simp [hr, bind, Except.bind, pure, Except.pure, eq_comm]

theorem enumValuesFrom_cons_error : enumValuesFrom previous (e :: es) = .error err ↔
    e.evaluate previous = .error err ∨
      ∃ value, e.evaluate previous = .ok value ∧ enumValuesFrom value es = .error err := by
  rw [enumValuesFrom]
  cases hv : e.evaluate previous with
  | error err => simp [bind, Except.bind]
  | ok value =>
    cases hr : enumValuesFrom value es with
    | error err => simp [hr, bind, Except.bind]
    | ok rest => simp [hr, bind, Except.bind, pure, Except.pure]

theorem enumValuesFrom_isOk (es : List Enumerator) : ∀ previous,
    (∃ values, enumValuesFrom previous es = .ok values) ↔ ∀ e ∈ es, e.IsIntegral := by
  induction es with
  | nil => simp [enumValuesFrom]
  | cons e es ih =>
    intro previous
    rw [List.forall_mem_cons, isIntegral_iff previous]
    constructor
    · intro h
      obtain ⟨values, hvalues⟩ := h
      obtain ⟨value, rest, hvalue, hrest, _⟩ := enumValuesFrom_cons_ok.mp hvalues
      exact ⟨⟨value, hvalue⟩, (ih value).mp ⟨rest, hrest⟩⟩
    · intro h
      obtain ⟨⟨value, hvalue⟩, hall⟩ := h
      obtain ⟨rest, hrest⟩ := (ih value).mpr hall
      exact ⟨_, enumValuesFrom_cons_ok.mpr ⟨value, rest, hvalue, hrest, rfl⟩⟩

theorem enumValuesFrom_error_iff (es : List Enumerator) : ∀ previous,
    enumValuesFrom previous es = .error err ↔
      ∃ name source, FirstFailing es name source ∧ err = .constant name source := by
  induction es with
  | nil =>
    intro previous
    constructor
    · intro h
      cases h
    · intro h
      obtain ⟨_, _, hfirst, _⟩ := h
      cases hfirst
  | cons e es ih =>
    intro previous
    rw [enumValuesFrom_cons_error, evaluate_error_iff]
    constructor
    · intro h
      obtain ⟨x, source, hx, hs, rfl⟩ | ⟨value, hvalue, hrest⟩ := h
      · exact ⟨_, _, .here hx hs, rfl⟩
      · obtain ⟨name, source, hfirst, rfl⟩ := (ih value).mp hrest
        exact ⟨name, source, .behind ((isIntegral_iff previous).mpr ⟨value, hvalue⟩) hfirst, rfl⟩
    · intro h
      obtain ⟨name, source, hfirst, rfl⟩ := h
      cases hfirst with
      | here hx hs => exact .inl ⟨_, _, hx, hs, rfl⟩
      | behind he rest =>
        obtain ⟨value, hvalue⟩ := (isIntegral_iff previous).mp he
        exact .inr ⟨value, hvalue, (ih value).mpr ⟨name, source, rest, rfl⟩⟩

theorem enumValuesFrom_names (h : enumValuesFrom previous es = .ok values) :
    values.map (·.name) = es.map (·.name) := by
  induction es generalizing previous values with
  | nil =>
    cases h
    rfl
  | cons e es ih =>
    obtain ⟨value, rest, _, hrest, rfl⟩ := enumValuesFrom_cons_ok.mp h
    rw [List.map_cons, List.map_cons, ih hrest]

theorem enumValuesFrom_counts (h : enumValuesFrom previous es = .ok values) {i : Nat}
    {v : EnumValue} (hv : values[i]? = some v) :
    (∃ j n, CountsFrom es i j n ∧ v.value = n + Int64.ofNat (i - j)) ∨
      CountsFromStart es i ∧ v.value = previous + 1 + Int64.ofNat i := by
  induction es generalizing previous values i with
  | nil =>
    cases h
    cases hv
  | cons e es ih =>
    obtain ⟨value, rest, hvalue, hrest, rfl⟩ := enumValuesFrom_cons_ok.mp h
    cases i with
    | zero =>
      cases hv
      obtain ⟨he, rfl⟩ | ⟨x, hx, hn⟩ := evaluate_ok_iff.mp hvalue
      · exact .inr ⟨.zero he, by simp⟩
      · exact .inl ⟨0, value, .zero hx hn, by simp⟩
    | succ i =>
      obtain ⟨j, n, hcounts, hj⟩ | ⟨hstart, hi⟩ := ih hrest hv
      · exact .inl ⟨j + 1, n, hcounts.succ, by rw [hj, Nat.add_sub_add_right]⟩
      · -- the rest has no expression, so it counts from the enumerator in front
        have hone : Int64.ofNat (i + 1) = 1 + Int64.ofNat i := by
          rw [Int64.ofNat_add, Int64.add_comm]
          rfl
        rw [Int64.add_assoc, ← hone] at hi
        obtain ⟨he, rfl⟩ | ⟨x, hx, hn⟩ := evaluate_ok_iff.mp hvalue
        · exact .inr ⟨hstart.succ he, hi⟩
        · exact .inl ⟨0, value, .first hx hn hstart, hi⟩

theorem toInt_add_ofNat (n : Int64) (k : Nat) :
    (n + Int64.ofNat k).toInt = wrap64 (n.toInt + k) := by
  rw [Int64.toInt_add, Int64.toInt_ofNat', wrap64]
  exact Int.add_bmod_bmod

/-- There are values exactly if every expression stands for a whole number. Each then has
the name of its enumerator and counts from the last expression at or before it, or from
zero. Otherwise the first expression that does not is reported. -/
theorem enumValues_numbered (es : List Enumerator) :
    ((∃ values, enumValues es = .ok values) ↔ ∀ e ∈ es, e.IsIntegral) ∧
    (∀ values, enumValues es = .ok values → values.map (·.name) = es.map (·.name) ∧
      ∀ i v, values[i]? = some v →
        (∃ j n, CountsFrom es i j n ∧ v.value.toInt = wrap64 (n.toInt + (i - j))) ∨
          CountsFromStart es i ∧ v.value.toInt = wrap64 i) ∧
    ∀ err, enumValues es = .error err ↔
      ∃ name source, FirstFailing es name source ∧ err = .constant name source := by
  refine ⟨enumValuesFrom_isOk es (-1), fun values h => ⟨enumValuesFrom_names h, ?_⟩,
    fun err => enumValuesFrom_error_iff es (-1)⟩
  intro i v hv
  obtain ⟨j, n, hcounts, hj⟩ | ⟨hstart, hi⟩ := enumValuesFrom_counts h hv
  · refine .inl ⟨j, n, hcounts, ?_⟩
    rw [hj, toInt_add_ofNat, Int.ofNat_sub hcounts.le]
  · refine .inr ⟨hstart, ?_⟩
    rw [hi, toInt_add_ofNat]
    simp

/-- Behind the largest value comes the smallest. -/
example : (enumValues
  [⟨"A", none, none⟩, ⟨"B", some (.literal .integer "0x7fffffffffffffff"), none⟩,
    ⟨"C", none, none⟩]).toOption.map (·.map (·.value)) =
      some [0, Int64.maxValue, Int64.minValue] := by
  cbv

end CythonDecls
