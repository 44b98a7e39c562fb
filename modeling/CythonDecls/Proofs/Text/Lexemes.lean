import CythonDecls.Text.Blank
import CythonDecls.Text.Numeral
import Mathlib.Data.List.Forall2
import Mathlib.Data.List.Induction
import Mathlib.Data.List.TakeWhile
import Mathlib.Data.Nat.Digits.Defs

/-!
# Trimmed texts and digits

What all literals are made of, said without the readers: a text with white
space around it, and a row of digits with its value in a radix.
-/

namespace CythonDecls.Text

/-! ## White space -/

/-- `core` is `cs` without the white space around it. -/
structure Trims (cs core : List Char) : Prop where
  around : ∃ front back, cs = front ++ core ++ back ∧ ∀ c ∈ front ++ back, isBlank c = true
  first : ∀ c ∈ core.head?, isBlank c = false
  last : ∀ c ∈ core.getLast?, isBlank c = false

section
variable {p : Char → Bool}

theorem dropWhile_append {front cs : List Char} (hf : ∀ c ∈ front, p c = true)
    (hc : ∀ c ∈ cs.head?, p c = false) : (front ++ cs).dropWhile p = cs := by
  rw [List.dropWhile_append_of_pos hf]
  cases cs with
  | nil => rfl
  | cons c cs => simp [hc c rfl]

theorem takeWhile_append {front cs : List Char} (hf : ∀ c ∈ front, p c = true)
    (hc : ∀ c ∈ cs.head?, p c = false) : (front ++ cs).takeWhile p = front := by
  rw [List.takeWhile_append_of_pos hf]
  cases cs with
  | nil => simp
  | cons c cs => simp [hc c rfl]

theorem takeWhile_take {limit : Nat} {run rest : List Char}
    (hrun : ∀ c ∈ run, p c = true) (hlen : run.length ≤ limit)
    (hrest : run.length = limit ∨ ∀ c ∈ rest.head?, p c = false) :
    ((run ++ rest).take limit).takeWhile p = run := by
  rw [List.take_append, List.take_of_length_le hlen]
  refine takeWhile_append hrun ?_
  rcases hrest with rfl | hrest
  · simp
  · intro c hc
    rw [List.head?_take] at hc
    split at hc
    · cases hc
    · exact hrest c hc

theorem takeWhile_take_cases (p : Char → Bool) (limit : Nat) (cs : List Char) :
    ∃ run rest, cs = run ++ rest ∧ (cs.take limit).takeWhile p = run ∧ run.length ≤ limit ∧
      (run.length = limit ∨ ∀ c ∈ rest.head?, p c = false) := by
  induction cs generalizing limit with
  | nil => exact ⟨[], [], rfl, by simp⟩
  | cons c cs ih =>
    cases limit with
    | zero => exact ⟨[], c :: cs, rfl, by simp⟩
    | succ limit =>
      by_cases hc : p c = true
      · obtain ⟨run, rest, rfl, hrun, hlen, hrest⟩ := ih limit
        exact ⟨c :: run, rest, rfl, by simp [hc, hrun], by simpa using hlen, by simpa using hrest⟩
      · exact ⟨[], c :: cs, rfl, by simpa using hc⟩

theorem head?_dropWhile (p : Char → Bool) (cs : List Char) :
    ∀ c ∈ (cs.dropWhile p).head?, p c = false := by
  intro c hc
  have h := List.head?_dropWhile_not p cs
  rw [Option.mem_def.mp hc] at h
  exact h

theorem dropEnd_append {cs back : List Char} (hb : ∀ c ∈ back, p c = true)
    (hc : ∀ c ∈ cs.getLast?, p c = false) : dropEnd p (cs ++ back) = cs := by
  unfold dropEnd
  rw [List.reverse_append, dropWhile_append (by simpa using hb) (by simpa using hc),
    List.reverse_reverse]

theorem dropEnd_cases (p : Char → Bool) (cs : List Char) :
    ∃ back, cs = dropEnd p cs ++ back ∧ (∀ c ∈ back, p c = true) ∧
      ∀ c ∈ (dropEnd p cs).getLast?, p c = false := by
  refine ⟨(cs.reverse.takeWhile p).reverse, ?_, ?_, ?_⟩
  · rw [dropEnd, ← List.reverse_append, List.takeWhile_append_dropWhile, List.reverse_reverse]
  · intro c hc
    exact List.mem_takeWhile_imp (List.mem_reverse.mp hc)
  · rw [dropEnd, List.getLast?_reverse]
    exact head?_dropWhile p cs.reverse

end

theorem trims_trim (cs : List Char) : Trims cs (trim cs) := by
  obtain ⟨back, hback, hb, hlast⟩ := dropEnd_cases isBlank (cs.dropWhile isBlank)
  have hcs : cs = cs.takeWhile isBlank ++ trim cs ++ back := by
    rw [List.append_assoc, trim, ← hback, List.takeWhile_append_dropWhile]
  refine ⟨⟨_, back, hcs, ?_⟩, ?_, hlast⟩
  · intro c hc
    exact (List.mem_append.mp hc).elim List.mem_takeWhile_imp (hb c)
  · intro c hc
    have hc : (dropEnd isBlank (cs.dropWhile isBlank)).head? = some c := hc
    apply head?_dropWhile isBlank cs
    rw [hback, List.head?_append, hc]
    rfl

theorem trim_eq_iff {cs core : List Char} : trim cs = core ↔ Trims cs core := by
  refine ⟨fun h => h ▸ trims_trim cs, ?_⟩
  rintro ⟨⟨front, back, rfl, hblank⟩, hfirst, hlast⟩
  have hf : ∀ c ∈ front, isBlank c = true := fun c hc => hblank c (List.mem_append_left _ hc)
  have hb : ∀ c ∈ back, isBlank c = true := fun c hc => hblank c (List.mem_append_right _ hc)
  unfold trim
  rw [List.append_assoc]
  cases core with
  | nil =>
    have hnil : (front ++ back).dropWhile isBlank = [] := by
      simpa [List.dropWhile_eq_nil_iff] using hblank
    rw [List.nil_append, hnil]
    rfl
  | cons c core => rw [dropWhile_append hf (by simpa using hfirst), dropEnd_append hb hlast]

/-! ## Digits -/

/-- `c` is the digit `d` of the radix, a letter of either case from ten on. -/
def IsDigit (radix : Nat) (c : Char) (d : Nat) : Prop :=
  d < radix ∧ (c = Nat.digitChar d ∨ c = (Nat.digitChar d).toUpper)

/-- `cs` are digits, at least one, and `n` is the number that they write. -/
def WritesNumber (radix : Nat) (cs : List Char) (n : Nat) : Prop :=
  cs ≠ [] ∧ ∃ ds, List.Forall₂ (IsDigit radix) cs ds ∧ n = Nat.ofDigits radix ds.reverse

theorem WritesNumber.digit {radix n : Nat} {cs : List Char} (h : WritesNumber radix cs n) :
    ∀ c ∈ cs, ∃ d, IsDigit radix c d := by
  obtain ⟨-, ds, hds, -⟩ := h
  induction hds with
  | nil => simp
  | cons hd _ ih => exact List.forall_mem_cons.mpr ⟨⟨_, hd⟩, ih⟩

theorem WritesNumber.lt {radix n : Nat} {cs : List Char} (h : WritesNumber radix cs n)
    (hr : 1 < radix) : n < radix ^ cs.length := by
  obtain ⟨-, ds, hds, rfl⟩ := h
  have hlt : ∀ d ∈ ds, d < radix := by
    clear hr
    induction hds with
    | nil => simp
    | cons hd _ ih => exact List.forall_mem_cons.mpr ⟨hd.1, ih⟩
  rw [hds.length_eq, ← List.length_reverse]
  exact Nat.ofDigits_lt_base_pow_length hr fun d hd => hlt d (List.mem_reverse.mp hd)

theorem digit?_digitChar : ∀ d < 16, digit? 16 (Nat.digitChar d) = some d ∧
    digit? 16 (Nat.digitChar d).toUpper = some d := by
  decide

theorem isDigit_of_ofNat : ∀ n < 103, ∀ d ∈ digit? 16 (Char.ofNat n),
    d < 16 ∧ (Char.ofNat n = Nat.digitChar d ∨ Char.ofNat n = (Nat.digitChar d).toUpper) := by
  decide

theorem isDigit_of_digit? {c : Char} {d : Nat} (h : digit? 16 c = some d) : IsDigit 16 c d := by
  have hlt : c.toNat < 103 := by
    obtain ⟨hvalue, _⟩ := Option.filter_eq_some_iff.mp h
    simp only [Char.reduceToNat] at hvalue
    split at hvalue
    · omega
    · split at hvalue
      · omega
      · split at hvalue
        · omega
        · cases hvalue
  have hc := isDigit_of_ofNat c.toNat hlt
  rw [Char.ofNat_toNat] at hc
  exact hc d h

theorem positional_eq (radix : Nat) (ds : List Nat) :
    positional radix ds = Nat.ofDigits radix ds.reverse := by
  induction ds using List.reverseRecOn with
  | nil => rfl
  | append_singleton ds d ih =>
    rw [List.reverse_append, List.reverse_singleton, List.singleton_append, Nat.ofDigits_cons, ← ih]
    simp [positional, Nat.add_comm, Nat.mul_comm]

section
variable {radix : Nat} (hr : radix ≤ 16)
include hr

theorem digit?_eq_some_iff {c : Char} {d : Nat} : digit? radix c = some d ↔ IsDigit radix c d := by
  have hsmall : digit? radix c = (digit? 16 c).filter (· < radix) := by
    dsimp only [digit?]
    rw [Option.filter_filter]
    congr 1
    funext n
    by_cases hn : n < radix
    · simp [hn, Nat.lt_of_lt_of_le hn hr]
    · simp [hn]
  rw [hsmall, Option.filter_eq_some_iff, decide_eq_true_eq]
  constructor
  · rintro ⟨hd, hlt⟩
    exact ⟨hlt, (isDigit_of_digit? hd).2⟩
  · rintro ⟨hlt, rfl | rfl⟩
    · exact ⟨(digit?_digitChar d (Nat.lt_of_lt_of_le hlt hr)).1, hlt⟩
    · exact ⟨(digit?_digitChar d (Nat.lt_of_lt_of_le hlt hr)).2, hlt⟩

theorem mapM_digit?_eq_some_iff : ∀ {cs : List Char} {ds : List Nat},
    cs.mapM (digit? radix) = some ds ↔ List.Forall₂ (IsDigit radix) cs ds
  | [], ds => by simp [eq_comm]
  | c :: cs, [] => by
    rw [List.mapM_cons]
    cases digit? radix c with
    | none => simp
    | some e => cases cs.mapM (digit? radix) <;> simp
  | c :: cs, d :: ds => by
    rw [List.forall₂_cons, ← digit?_eq_some_iff hr, ← mapM_digit?_eq_some_iff, List.mapM_cons]
    cases digit? radix c with
    | none => simp
    | some e => cases cs.mapM (digit? radix) <;> simp

theorem digits?_eq_some_iff {cs : List Char} {n : Nat} :
    digits? radix cs = some n ↔ WritesNumber radix cs n := by
  unfold digits? WritesNumber
  cases cs with
  | nil => simp
  | cons c cs =>
    simp only [List.isEmpty_cons, Bool.false_eq_true, if_false, Option.map_eq_some_iff, ne_eq,
      reduceCtorEq, not_false_eq_true, true_and, mapM_digit?_eq_some_iff hr, positional_eq]
    simp only [eq_comm]

end

end CythonDecls.Text
