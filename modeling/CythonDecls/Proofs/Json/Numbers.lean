import CythonDecls.Json.Token
import Mathlib.Data.List.TakeWhile
import Mathlib.Data.Option.Basic

/-!
# Lexemes of numbers

A number that is read is made of the characters of bare tokens, and is no
word. The digits of a natural number below one 64-bit word are a number that
fits, and name that number again.
-/

namespace CythonDecls.Json

/-! ## Characters -/

theorem all_bareChar_of_digits {cs : List Char} (h : cs.all Char.isDigit = true) :
    cs.all bareChar = true := by
  rw [List.all_eq_true] at h ⊢
  intro c hc
  simp [bareChar, Char.isAlphanum, h c hc]

theorem all_bareChar_takeWhile (cs : List Char) :
    (cs.takeWhile Char.isDigit).all bareChar = true :=
  all_bareChar_of_digits List.all_takeWhile

theorem all_bareChar_cons {c : Char} {cs : List Char} (hc : bareChar c = true)
    (hcs : cs.all bareChar = true) : (c :: cs).all bareChar = true := by
  rw [List.all_cons, hc, hcs]
  rfl

theorem NumberParts.all_bareChar {cs : List Char} {p : NumberParts} (h : read? cs = some p) :
    cs ≠ [] ∧ cs.all bareChar = true := by
  unfold read? at h
  split at h
  rename_i negative body hsign
  have hsigned : body ≠ [] ∧ body.all bareChar = true → cs ≠ [] ∧ cs.all bareChar = true := by
    intro ⟨hne, hall⟩
    split at hsign
    · cases hsign
      exact ⟨List.cons_ne_nil _ _, all_bareChar_cons rfl hall⟩
    · cases hsign
      exact ⟨hne, hall⟩
  extract_lets whole rest ending at h
  -- `ending` reads what follows the fraction: nothing, or an exponent
  have hending (fraction tail : List Char) (ht : ending (fraction, tail) = some p) :
      tail.all bareChar = true := by
    simp only [ending] at ht
    split at ht
    · rfl
    obtain ⟨_, he, ht⟩ := Option.bind_eq_some_iff.mp ht
    obtain ⟨_, hd, -⟩ := Option.bind_eq_some_iff.mp ht
    have hdigits := ((Option.guard_eq_some' _).mp hd).2
    apply all_bareChar_cons
    · rcases (Option.guard_eq_some' _).mp he with rfl | rfl <;> rfl
    · split at hdigits
      · exact all_bareChar_cons rfl (all_bareChar_of_digits hdigits)
      · exact all_bareChar_cons rfl (all_bareChar_of_digits hdigits)
      · exact all_bareChar_of_digits hdigits
  obtain ⟨_, hwhole, h⟩ := Option.bind_eq_some_iff.mp h
  have hne : whole ≠ [] := by
    rcases (Option.guard_eq_some' _).mp hwhole with hzero | hpositive
    · rw [hzero]
      exact List.cons_ne_nil _ _
    · exact hpositive.1
  have hrest : rest.all bareChar = true := by
    clear_value rest
    clear hwhole
    split at h
    · rename_i tail _
      extract_lets digits at h
      split at h
      · cases h
      apply all_bareChar_cons rfl
      rw [← List.takeWhile_append_dropWhile (p := Char.isDigit) (l := tail), List.all_append,
        all_bareChar_takeWhile, hending _ _ h]
      rfl
    · exact hending _ _ h
  apply hsigned
  have hbody : whole ++ rest = body := List.takeWhile_append_dropWhile
  rw [← hbody, List.all_append, all_bareChar_takeWhile, hrest]
  exact ⟨fun hnil => hne (List.append_eq_nil_iff.mp hnil).1, rfl⟩

theorem Token.ofBare?_number {lexeme : String} {p : NumberParts}
    (h : NumberParts.read? lexeme.toList = some p) :
    ofBare? lexeme.toList = some (.number lexeme) := by
  have hword (word : String) (hw : NumberParts.read? word.toList = none) :
      lexeme.toList ≠ word.toList := by
    intro he
    rw [he, hw] at h
    cases h
  rw [ofBare?, if_neg (hword "null" rfl), if_neg (hword "true" rfl), if_neg (hword "false" rfl), h,
    Option.map_some, String.ofList_toList]

/-! ## Natural numbers -/

theorem head_toDigits {n : Nat} (hn : 0 < n) : (Nat.toDigits 10 n).head? ≠ some '0' := by
  induction n using Nat.strongRecOn with
  | ind n ih =>
    by_cases hlt : n < 10
    · have hdigit : ∀ n < 10, 0 < n → Nat.digitChar n ≠ '0' := by decide
      rw [Nat.toDigits_of_lt_base hlt]
      simpa using hdigit n hlt hn
    · have hhead := ih (n / 10) (by omega) (by omega)
      rw [Nat.toDigits_of_base_le (by decide) (by omega)]
      obtain ⟨c, cs, hc⟩ := List.exists_cons_of_ne_nil (Nat.toDigits_ne_nil (n := n / 10) (b := 10))
      rw [hc] at hhead ⊢
      exact hhead

theorem NumberParts.read?_toDigits (n : Nat) :
    read? (Nat.toDigits 10 n) = some ⟨false, Nat.toDigits 10 n, [], 0⟩ := by
  have hdigits (c : Char) (hc : c ∈ Nat.toDigits 10 n) : c.isDigit = true :=
    Nat.isDigit_of_mem_toDigits (by decide) (by decide) hc
  have hplaces : Nat.toDigits 10 n = ['0'] ∨
      (Nat.toDigits 10 n ≠ [] ∧ (Nat.toDigits 10 n).head? ≠ some '0') := by
    cases n with
    | zero => exact .inl (Nat.toDigits_zero 10)
    | succ n => exact .inr ⟨Nat.toDigits_ne_nil, head_toDigits n.succ_pos⟩
  have htake := List.takeWhile_eq_self_iff.mpr hdigits
  have hdrop := List.dropWhile_eq_nil_iff.mpr hdigits
  unfold read?
  split
  rename_i hsign
  split at hsign
  · rename_i hminus
    cases hdigits '-' (hminus ▸ List.mem_cons_self)
  · cases hsign
    simp only [htake, hdrop, guard, if_pos hplaces]
    rfl

theorem le_ofDigitChars (cs : List Char) : ∀ word, word ≤ Nat.ofDigitChars 10 cs word := by
  induction cs with
  | nil => exact fun word => Nat.le_refl word
  | cons c cs ih =>
    intro word
    rw [Nat.ofDigitChars_cons]
    exact Nat.le_trans (by omega) (ih _)

/-- Digits whose value is one word fill it without a place left. -/
theorem fill_eq (cs : List Char) : ∀ word, Nat.ofDigitChars 10 cs word < UInt64.size →
    fill word cs = (Nat.ofDigitChars 10 cs word, []) := by
  induction cs with
  | nil => exact fun _ _ => rfl
  | cons c cs ih =>
    intro word hlt
    rw [Nat.ofDigitChars_cons] at hlt ⊢
    have hnext := Nat.lt_of_le_of_lt (le_ofDigitChars cs _) hlt
    rw [fill, Nat.mul_comm]
    simp only [hnext, if_true, ih _ hlt]

theorem fits_toString {n : Nat} (hn : n < UInt64.size) : fits (toString n) = true := by
  have hlexeme : (toString n).toList = Nat.toDigits 10 n := Nat.toList_repr
  have hfill : fill 0 (Nat.toDigits 10 n) = (n, []) := by
    have := fill_eq (Nat.toDigits 10 n) 0
    rwa [Nat.ofDigitChars_ten_toDigits, imp_iff_right hn] at this
  rw [fits, hlexeme, NumberParts.read?_toDigits]
  simp [NumberParts.scaled, hfill, fill, overflows]

theorem nat?_nat (n : Nat) : (nat n).nat? = some n := by
  have hlexeme : (toString n).toList = Nat.toDigits 10 n := Nat.toList_repr
  have hdigits : (Nat.toDigits 10 n).all Char.isDigit = true :=
    List.all_eq_true.mpr fun c hc => Nat.isDigit_of_mem_toDigits (by decide) (by decide) hc
  rw [nat, nat?, hlexeme, if_pos hdigits, Nat.ofDigitChars_ten_toDigits]

end CythonDecls.Json
