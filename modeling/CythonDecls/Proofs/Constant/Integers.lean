import CythonDecls.Proofs.Constant.TwosComplement
import CythonDecls.Proofs.Text.Lexemes

/-!
# Integer literals

The texts that are integer literals, and their values, as a grammar. The reader
cuts a text at fixed places instead: white space and the sign at the front, the
suffix at the end, the mark of the radix in between. No digit is a letter of
the suffix or of a mark, so it finds the parts of the grammar.
-/

namespace CythonDecls.Constant

open Text

/-- Digits whose value has 64 bits, with a plus sign in front or without. -/
def Numeral (radix : Nat) (cs : List Char) (n : Nat) : Prop :=
  ∃ digits, (cs = digits ∨ cs = '+' :: digits) ∧ WritesNumber radix digits n ∧ n < 2 ^ 64

/-- A literal without its sign and its suffix. -/
inductive Magnitude : List Char → Nat → Prop where
  | hexadecimal {mark : Char} {cs : List Char} {n : Nat} (marked : mark = 'x' ∨ mark = 'X')
      (numeral : Numeral 16 cs n) : Magnitude ('0' :: mark :: cs) n
  | octal {cs : List Char} {n : Nat} (numeral : Numeral 8 cs n) : Magnitude ('0' :: cs) n
  | decimal {cs : List Char} {n : Nat} (numeral : Numeral 10 cs n)
      (zero : cs.head? = some '0' → cs.length = 1) : Magnitude cs n

inductive IntegerLiteral : List Char → Int → Prop where
  | positive {body suffix : List Char} {n : Nat} (magnitude : Magnitude body n)
      (letters : ∀ c ∈ suffix, c ∈ ['u', 'U', 'l', 'L']) : IntegerLiteral (body ++ suffix) n
  | negative {body suffix : List Char} {n : Nat} (magnitude : Magnitude body n)
      (letters : ∀ c ∈ suffix, c ∈ ['u', 'U', 'l', 'L']) :
      IntegerLiteral ('-' :: (body ++ suffix)) (-n)

def marks : List Char := ['+', '-', 'x', 'X', 'u', 'U', 'l', 'L']

theorem digitChar_not_mem_marks : ∀ d < 16, Nat.digitChar d ∉ marks ∧
    (Nat.digitChar d).toUpper ∉ marks := by
  decide

section
variable {radix : Nat} (hr : radix ≤ 16) {cs : List Char} {n : Nat}
include hr

theorem not_mark_of_isDigit {c : Char} {d : Nat} (h : IsDigit radix c d) : c ∉ marks := by
  obtain ⟨hlt, rfl | rfl⟩ := h
  · exact (digitChar_not_mem_marks d (Nat.lt_of_lt_of_le hlt hr)).1
  · exact (digitChar_not_mem_marks d (Nat.lt_of_lt_of_le hlt hr)).2

theorem not_mark_of_mem (h : WritesNumber radix cs n) {c : Char} (hc : c ∈ cs) : c ∉ marks := by
  obtain ⟨d, hd⟩ := h.digit c hc
  exact not_mark_of_isDigit hr hd

/-! ## Numerals -/

theorem numeral?_eq_some_iff : Literal.numeral? radix cs = some n ↔ Numeral radix cs n := by
  have hplus (digits : List Char) : ¬WritesNumber radix ('+' :: digits) n := fun h =>
    not_mark_of_mem hr h List.mem_cons_self (by decide)
  unfold Literal.numeral? Numeral
  simp only [Option.filter_eq_some_iff, digits?_eq_some_iff hr, decide_eq_true_eq]
  split
  next digits =>
    constructor
    · exact fun h => ⟨digits, .inr rfl, h⟩
    · rintro ⟨_, rfl | he, h⟩
      · exact absurd h.1 (hplus digits)
      · cases he
        exact h
  next hne =>
    constructor
    · exact fun h => ⟨cs, .inl rfl, h⟩
    · rintro ⟨digits, rfl | rfl, h⟩
      · exact h
      · exact absurd rfl (hne digits)

theorem Numeral.head (h : Numeral radix cs n) : ∃ c, cs.head? = some c ∧ (c = '+' ∨ c ∉ marks) := by
  obtain ⟨digits, rfl | rfl, hw, _⟩ := h
  · obtain ⟨c, cs, rfl⟩ := List.exists_cons_of_ne_nil hw.1
    exact ⟨c, rfl, .inr (not_mark_of_mem hr hw List.mem_cons_self)⟩
  · exact ⟨'+', rfl, .inl rfl⟩

theorem Numeral.last (h : Numeral radix cs n) : ∃ front c, cs = front ++ [c] ∧ c ∉ marks := by
  obtain ⟨digits, hcs, hw, _⟩ := h
  obtain ⟨front, c, rfl⟩ := (List.eq_nil_or_concat' digits).resolve_left hw.1
  have hc : c ∉ marks := not_mark_of_mem hr hw (List.mem_append_right _ List.mem_cons_self)
  rcases hcs with rfl | rfl
  · exact ⟨front, c, rfl, hc⟩
  · exact ⟨'+' :: front, c, rfl, hc⟩

end

/-! ## Magnitudes -/

theorem Magnitude.first {cs : List Char} {n : Nat} (h : Magnitude cs n) :
    ∃ c, cs.head? = some c ∧ c ≠ '-' := by
  cases h with
  | hexadecimal => exact ⟨'0', rfl, by decide⟩
  | octal => exact ⟨'0', rfl, by decide⟩
  | decimal numeral _ =>
    obtain ⟨c, hc, rfl | hm⟩ := numeral.head (by decide)
    · exact ⟨'+', hc, by decide⟩
    · exact ⟨c, hc, fun he => hm (he ▸ by decide)⟩

theorem Magnitude.last {cs : List Char} {n : Nat} (h : Magnitude cs n) :
    ∃ front c, cs = front ++ [c] ∧ c ∉ marks := by
  cases h with
  | hexadecimal marked numeral =>
    obtain ⟨front, c, rfl, hc⟩ := numeral.last (by decide)
    exact ⟨_ :: _ :: front, c, rfl, hc⟩
  | octal numeral =>
    obtain ⟨front, c, rfl, hc⟩ := numeral.last (by decide)
    exact ⟨_ :: front, c, rfl, hc⟩
  | decimal numeral _ => exact numeral.last (by decide)

theorem radix_eq_iff {body : List Char} {n : Nat} :
    Literal.numeral? (Literal.radix body).1 (Literal.radix body).2 = some n ↔ Magnitude body n := by
  -- a zero in front of something else leaves no decimal numeral
  have hzero {c : Char} {cs : List Char} (h : Magnitude ('0' :: c :: cs) n) :
      ((c = 'x' ∨ c = 'X') ∧ Numeral 16 cs n) ∨ Numeral 8 (c :: cs) n := by
    cases h with
    | hexadecimal marked numeral => exact .inl ⟨marked, numeral⟩
    | octal numeral => exact .inr numeral
    | decimal _ zero => exact absurd (zero rfl) (by simp)
  have hoctal {c : Char} {cs : List Char} (hc : c = 'x' ∨ c = 'X') : ¬Numeral 8 (c :: cs) n := by
    intro h
    obtain ⟨_, hhead, rfl | hm⟩ := h.head (by decide)
    · rcases hc with rfl | rfl <;> cases hhead
    · rcases hc with rfl | rfl <;> cases hhead <;> exact hm (by decide)
  unfold Literal.radix
  split
  next cs =>
    refine (@numeral?_eq_some_iff 16 (Nat.le_refl _) _ _).trans ⟨.hexadecimal (.inl rfl), ?_⟩
    exact fun h => (hzero h).elim (·.2) fun h => absurd h (hoctal (.inl rfl))
  next cs =>
    refine (@numeral?_eq_some_iff 16 (Nat.le_refl _) _ _).trans ⟨.hexadecimal (.inr rfl), ?_⟩
    exact fun h => (hzero h).elim (·.2) fun h => absurd h (hoctal (.inr rfl))
  next c cs hx hX =>
    refine (@numeral?_eq_some_iff 8 (by decide) _ _).trans ⟨.octal, fun h => ?_⟩
    rcases hzero h with ⟨rfl | rfl, _⟩ | h
    · exact absurd rfl hx
    · exact absurd rfl hX
    · exact h
  next hshort =>
    refine (@numeral?_eq_some_iff 10 (by decide) _ _).trans ⟨fun h => .decimal h ?_, ?_⟩
    · intro hhead
      obtain ⟨cs, rfl⟩ := List.head?_eq_some_iff.mp hhead
      cases cs with
      | nil => rfl
      | cons c cs => exact (hshort c cs rfl).elim
    · intro h
      cases h with
      | hexadecimal => exact (hshort _ _ rfl).elim
      | @octal cs _ numeral =>
        obtain ⟨c, hc, _⟩ := numeral.head (by decide)
        obtain ⟨cs, rfl⟩ := List.head?_eq_some_iff.mp hc
        exact (hshort c cs rfl).elim
      | decimal numeral _ => exact numeral

/-! ## Sign and suffix -/

theorem isIntegerSuffix_iff {c : Char} :
    Literal.isIntegerSuffix c = true ↔ c ∈ ['u', 'U', 'l', 'L'] := by
  simp [Literal.isIntegerSuffix, or_assoc]

/-- The letters at the end are cut off, and none of what is left is one. -/
theorem magnitude?_eq_some_iff {cs : List Char} {n : Nat} :
    Literal.magnitude? cs = some n ↔ ∃ body suffix, cs = body ++ suffix ∧
      (∀ c ∈ suffix, c ∈ ['u', 'U', 'l', 'L']) ∧ Magnitude body n := by
  have hread : Literal.magnitude? cs = some n ↔
      Magnitude (dropEnd Literal.isIntegerSuffix cs) n := radix_eq_iff
  rw [hread]
  constructor
  · intro h
    obtain ⟨suffix, hcs, hs, _⟩ := dropEnd_cases Literal.isIntegerSuffix cs
    exact ⟨_, suffix, hcs, fun c hc => isIntegerSuffix_iff.mp (hs c hc), h⟩
  · rintro ⟨body, suffix, rfl, hs, h⟩
    have hcut : dropEnd Literal.isIntegerSuffix (body ++ suffix) = body := by
      refine dropEnd_append (fun c hc => isIntegerSuffix_iff.mpr (hs c hc)) ?_
      obtain ⟨front, last, rfl, hlast⟩ := h.last
      intro c hc
      rw [List.getLast?_concat, Option.mem_some_iff] at hc
      have hmarks : ∀ c ∈ ['u', 'U', 'l', 'L'], c ∈ marks := by simp [marks]
      rw [← hc, Bool.eq_false_iff, ne_eq, isIntegerSuffix_iff]
      exact fun hmem => hlast (hmarks last hmem)
    rwa [hcut]

theorem eq_ofNat_iff {v : Int64} {n : Nat} : Int64.ofNat n = v ↔ v.toInt = wrap64 n := by
  rw [← Int64.toInt_inj, Int64.toInt_ofNat', wrap64]
  exact eq_comm

theorem eq_neg_ofNat_iff {v : Int64} {n : Nat} : -Int64.ofNat n = v ↔ v.toInt = wrap64 (-n) := by
  rw [← Int64.toInt_inj, Int64.toInt_neg, Int64.toInt_ofNat', Int.bmod_neg_bmod, wrap64]
  exact eq_comm

theorem integer?_eq_some_iff {cs : List Char} {v : Int64} : Literal.integer? cs = some v ↔
    ∃ z, IntegerLiteral (trim cs) z ∧ v.toInt = wrap64 z := by
  unfold Literal.integer?
  generalize trim cs = core
  split
  next cs =>
    simp only [Option.map_eq_some_iff, eq_neg_ofNat_iff, magnitude?_eq_some_iff]
    constructor
    · rintro ⟨n, ⟨body, suffix, rfl, hs, hm⟩, hv⟩
      exact ⟨-n, .negative hm hs, hv⟩
    · rintro ⟨z, h, hv⟩
      generalize hcore : '-' :: cs = core at h
      cases h with
      | @positive body suffix n magnitude letters =>
        obtain ⟨c, hc, hne⟩ := magnitude.first
        obtain ⟨body, rfl⟩ := List.head?_eq_some_iff.mp hc
        exact absurd (List.cons.inj hcore).1.symm hne
      | @negative body suffix n magnitude letters =>
        exact ⟨n, ⟨body, suffix, (List.cons.inj hcore).2, letters, magnitude⟩, hv⟩
  next hneg =>
    simp only [Option.map_eq_some_iff, eq_ofNat_iff, magnitude?_eq_some_iff]
    constructor
    · rintro ⟨n, ⟨body, suffix, rfl, hs, hm⟩, hv⟩
      exact ⟨n, .positive hm hs, hv⟩
    · rintro ⟨z, h, hv⟩
      cases h with
      | @positive body suffix n magnitude letters =>
        exact ⟨n, ⟨body, suffix, rfl, letters, magnitude⟩, hv⟩
      | negative => exact (hneg _ rfl).elim

theorem integer?_eq_none_iff {cs : List Char} :
    Literal.integer? cs = none ↔ ¬∃ z, IntegerLiteral (trim cs) z := by
  rw [Option.eq_none_iff_forall_ne_some]
  constructor
  · rintro h ⟨z, hz⟩
    exact h (Int64.ofInt z) (integer?_eq_some_iff.mpr ⟨z, hz, Int64.toInt_ofInt⟩)
  · intro h n hn
    obtain ⟨z, hz, _⟩ := integer?_eq_some_iff.mp hn
    exact h ⟨z, hz⟩

/-- An integer literal has a value where its text, without the white space around it, is one of
the grammar, and that is the number it writes with 64 bits and a sign. Any other text is refused. -/
theorem evaluate_integer (text : String) :
    (∀ v, evaluate (.literal .integer text) = .ok v ↔ ∃ core z n, Trims text.toList core ∧
      IntegerLiteral core z ∧ v = .integer n ∧ n.toInt = wrap64 z) ∧
    ∀ e, evaluate (.literal .integer text) = .error e ↔ e = .invalidLiteral text ∧
      ¬∃ core z, Trims text.toList core ∧ IntegerLiteral core z := by
  simp only [← trim_eq_iff]
  constructor
  · intro v
    rw [evaluate_literal_ok, Literal.value?, Option.map_eq_some_iff]
    simp only [integer?_eq_some_iff]
    constructor
    · rintro ⟨n, ⟨z, hz, hn⟩, rfl⟩
      exact ⟨_, z, n, rfl, hz, rfl, hn⟩
    · rintro ⟨_, z, n, rfl, hz, rfl, hn⟩
      exact ⟨n, ⟨z, hz, hn⟩, rfl⟩
  · intro e
    rw [evaluate_literal_error, Literal.value?, Option.map_eq_none_iff, integer?_eq_none_iff]
    simp

/-- The magnitude 2^63 wraps around, and a zero by itself is decimal. -/
example : (["9223372036854775808", " -0X10uL", "0u", "0x", "09"].map fun text =>
    Literal.integer? text.toList) = [some Int64.minValue, some (-16), some 0, none, none] := by
  decide +kernel

end CythonDecls.Constant
