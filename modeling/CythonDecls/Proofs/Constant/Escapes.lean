import CythonDecls.Proofs.Constant.TwosComplement
import CythonDecls.Proofs.Text.Lexemes
import Mathlib.Tactic.MkIffOfInductiveProp

/-!
# Character and string literals

The inside of a literal between quotes as a sequence of items, each with the
character that it stands for. What follows an item counts too: digits belong
to the item before them as long as they can.
-/

namespace CythonDecls.Constant

open Text

def simpleEscapes : List (Char × Char) :=
  [('n', '\n'), ('t', '\t'), ('r', '\r'), ('a', '\x07'), ('b', '\x08'), ('f', '\x0c'),
    ('v', '\x0b'), ('\\', '\\'), ('\'', '\''), ('"', '"'), ('?', '?')]

/-- One item with `rest` after it, and its character. Octal digits end with the third or before
a character that is none, hexadecimal ones only before such a character. -/
inductive Item (rest : List Char) : List Char → Char → Prop where
  | plain {c : Char} (h : c ≠ '\\') : Item rest [c] c
  | simple {letter c : Char} (h : (letter, c) ∈ simpleEscapes) : Item rest ['\\', letter] c
  | octal {digits : List Char} {n : Nat} (numeral : WritesNumber 8 digits n)
      (short : digits.length ≤ 3)
      (longest : digits.length = 3 ∨ ∀ c ∈ rest.head?, ∀ d, ¬IsDigit 8 c d) :
      Item rest ('\\' :: digits) (Char.ofNat n)
  | hexadecimal {digits : List Char} {c : Char} (numeral : WritesNumber 16 digits c.toNat)
      (longest : ∀ c ∈ rest.head?, ∀ d, ¬IsDigit 16 c d) : Item rest ('\\' :: 'x' :: digits) c

@[mk_iff]
inductive Items : List Char → List Char → Prop where
  | nil : Items [] []
  | cons {item rest out : List Char} {c : Char} (first : Item rest item c)
      (others : Items rest out) : Items (item ++ rest) (c :: out)

/-- What may stand in front of the first quote. -/
def encodings : List (List Char) := [[], ['u', '8'], ['L'], ['u'], ['U']]

/-- `cs` is a literal between two of `quote`, white space around it apart, and spells out `out`. -/
def Spells (quote : Char) (cs out : List Char) : Prop :=
  ∃ encoding ∈ encodings, ∃ inner,
    Trims cs (encoding ++ quote :: (inner ++ [quote])) ∧ Items inner out

/-! ## Digits of an escape -/

theorem isHex_eq_false_iff {c : Char} :
    Literal.isHex c = false ↔ ∀ d, ¬IsDigit 16 c d := by
  simp [Literal.isHex, ← digit?_eq_some_iff (Nat.le_refl 16), Option.eq_none_iff_forall_ne_some]

theorem isOctal_eq_false_iff {c : Char} :
    Literal.isOctal c = false ↔ ∀ d, ¬IsDigit 8 c d := by
  simp [Literal.isOctal, ← digit?_eq_some_iff (show 8 ≤ 16 by decide),
    Option.eq_none_iff_forall_ne_some]

theorem isHex_of_mem {digits : List Char} {n : Nat} (h : WritesNumber 16 digits n) :
    ∀ c ∈ digits, Literal.isHex c = true := by
  intro c hc
  obtain ⟨d, hd⟩ := h.digit c hc
  exact Option.isSome_iff_exists.mpr ⟨d, (digit?_eq_some_iff (Nat.le_refl 16)).mpr hd⟩

theorem isOctal_of_mem {digits : List Char} {n : Nat} (h : WritesNumber 8 digits n) :
    ∀ c ∈ digits, Literal.isOctal c = true := by
  intro c hc
  obtain ⟨d, hd⟩ := h.digit c hc
  exact Option.isSome_iff_exists.mpr ⟨d, (digit?_eq_some_iff (show 8 ≤ 16 by decide)).mpr hd⟩

theorem scalar?_eq_some_iff {n : Nat} {c : Char} : Literal.scalar? n = some c ↔ n = c.toNat := by
  unfold Literal.scalar?
  constructor
  · intro h
    split at h
    next hn =>
      cases h
      rw [Char.ofNat, dif_pos hn]
      rfl
    next => cases h
  · rintro rfl
    have hc : c.toNat.isValidChar := c.valid
    rw [if_pos hc, Char.ofNat_toNat]

theorem scalar?_octal {digits : List Char} {n : Nat} (h : WritesNumber 8 digits n)
    (hlen : digits.length ≤ 3) : Literal.scalar? n = some (Char.ofNat n) := by
  have hlt : n < 8 ^ digits.length := h.lt (by decide)
  have hpow : 8 ^ digits.length ≤ 8 ^ 3 := Nat.pow_le_pow_right (by decide) hlen
  exact if_pos (.inl (by omega))

/-! ## Items -/

theorem simpleEscape?_of_mem : ∀ p ∈ simpleEscapes, Literal.simpleEscape? p.1 = some p.2 ∧
    p.1 ≠ 'x' ∧ Literal.isOctal p.1 = false := by
  decide

theorem mem_of_simpleEscape? {letter c : Char} (h : Literal.simpleEscape? letter = some c) :
    (letter, c) ∈ simpleEscapes := by
  revert h
  unfold Literal.simpleEscape?
  split <;> simp +contextual [simpleEscapes, eq_comm]

theorem item_of_item? {cs rest : List Char} {c : Char} (h : Literal.item? cs = some (c, rest)) :
    ∃ item, cs = item ++ rest ∧ Item rest item c := by
  unfold Literal.item? at h
  split at h
  next => cases h
  next cs =>
    simp only [Option.bind_eq_bind, Option.bind_eq_some_iff, Option.pure_def, Option.some.injEq,
      Prod.mk.injEq, digits?_eq_some_iff (Nat.le_refl 16), scalar?_eq_some_iff] at h
    obtain ⟨_, hn, _, rfl, rfl, rfl⟩ := h
    refine ⟨_, ?_, .hexadecimal hn fun c hc => ?_⟩
    · simp
    · exact isHex_eq_false_iff.mp (head?_dropWhile _ _ c hc)
  next first cs _ =>
    split at h
    next =>
      obtain ⟨run, after, hcs, hrun, hlen, hafter⟩ :=
        takeWhile_take_cases Literal.isOctal 3 (first :: cs)
      simp only [Option.bind_eq_bind, Option.bind_eq_some_iff, Option.pure_def, Option.some.injEq,
        Prod.mk.injEq, digits?_eq_some_iff (show 8 ≤ 16 by decide), hrun] at h
      obtain ⟨n, hn, _, hc, rfl, rfl⟩ := h
      rw [scalar?_octal hn hlen] at hc
      cases hc
      rw [hcs, List.drop_left]
      refine ⟨_, rfl, .octal hn hlen (hafter.imp_right fun h c hc => ?_)⟩
      exact isOctal_eq_false_iff.mp (h c hc)
    next =>
      simp only [Option.map_eq_some_iff, Prod.mk.injEq] at h
      obtain ⟨_, hc, rfl, rfl⟩ := h
      exact ⟨_, rfl, .simple (mem_of_simpleEscape? hc)⟩
  next => cases h
  next hescape hend =>
    cases h
    refine ⟨_, rfl, .plain ?_⟩
    rintro rfl
    cases rest with
    | nil => exact hend rfl rfl
    | cons second rest => exact hescape second rest rfl rfl

theorem Item.item?_eq {rest item : List Char} {c : Char} (h : Item rest item c) :
    Literal.item? (item ++ rest) = some (c, rest) := by
  cases h with
  | plain h => simp [Literal.item?, h]
  | simple h =>
    obtain ⟨hc, hx, hoctal⟩ := simpleEscape?_of_mem _ h
    simp [Literal.item?, hoctal, hc]
  | octal numeral short longest =>
    obtain ⟨d, digits, rfl⟩ := List.exists_cons_of_ne_nil numeral.1
    obtain ⟨hd, hall⟩ := List.forall_mem_cons.mp (isOctal_of_mem numeral)
    have hx : d ≠ 'x' := by
      rintro rfl
      exact absurd hd (by decide)
    have hrun : ((digits ++ rest).take 2).takeWhile Literal.isOctal = digits := by
      refine takeWhile_take hall (Nat.le_of_succ_le_succ short) (longest.imp Nat.succ.inj ?_)
      exact fun h c hc => isOctal_eq_false_iff.mpr (h c hc)
    simp [Literal.item?, hd, hrun, scalar?_octal numeral short,
      (digits?_eq_some_iff (show 8 ≤ 16 by decide)).mpr numeral]
  | hexadecimal numeral longest =>
    have hrest (c : Char) (hc : c ∈ rest.head?) : Literal.isHex c = false :=
      isHex_eq_false_iff.mpr (longest c hc)
    simp [Literal.item?, takeWhile_append (isHex_of_mem numeral) hrest,
      dropWhile_append (isHex_of_mem numeral) hrest, scalar?_eq_some_iff.mpr rfl,
      (digits?_eq_some_iff (Nat.le_refl 16)).mpr numeral]

theorem item?_eq_some_iff {cs rest : List Char} {c : Char} :
    Literal.item? cs = some (c, rest) ↔ ∃ item, cs = item ++ rest ∧ Item rest item c :=
  ⟨item_of_item?, fun ⟨_, hcs, h⟩ => hcs ▸ h.item?_eq⟩

theorem Item.ne_nil {rest item : List Char} {c : Char} (h : Item rest item c) : item ≠ [] := by
  cases h <;> simp

theorem items_nil_iff {out : List Char} : Items [] out ↔ out = [] := by
  rw [items_iff]
  constructor
  · rintro (h | ⟨item, rest, out, c, h, -, hcs, -⟩)
    · exact h.2
    · simp [h.ne_nil] at hcs
  · exact fun h => .inl ⟨rfl, h⟩

/-- Fuel for every character is enough, for each item takes one. -/
theorem items?_eq_some_iff {fuel : Nat} {cs out : List Char} (hfuel : cs.length ≤ fuel) :
    Literal.items? fuel cs = some out ↔ Items cs out := by
  induction fuel generalizing cs out with
  | zero =>
    obtain rfl := List.eq_nil_of_length_eq_zero (Nat.le_zero.mp hfuel)
    rw [items_nil_iff, Literal.items?, Option.some_inj, eq_comm]
  | succ fuel ih =>
    cases cs with
    | nil => rw [items_nil_iff, Literal.items?, Option.some_inj, eq_comm]
    | cons first cs =>
      have hshort {item rest : List Char} {c : Char} (hcs : first :: cs = item ++ rest)
          (h : Item rest item c) : rest.length ≤ fuel := by
        have hitem := List.length_pos_iff.mpr h.ne_nil
        have hlen := congrArg List.length hcs
        rw [List.length_append] at hlen
        omega
      simp only [Literal.items?, Option.bind_eq_bind, Option.bind_eq_some_iff, Option.pure_def,
        Option.some_inj, Prod.exists, item?_eq_some_iff]
      constructor
      · rintro ⟨c, rest, ⟨item, hcs, hitem⟩, out, hout, rfl⟩
        rw [hcs]
        exact .cons hitem ((ih (hshort hcs hitem)).mp hout)
      · intro h
        obtain ⟨hnil, _⟩ | ⟨item, rest, out, c, hitem, hothers, hcs, rfl⟩ := (items_iff _ _).mp h
        · cases hnil
        · exact ⟨c, rest, ⟨item, hcs, hitem⟩, out, (ih (hshort hcs hitem)).mpr hothers, rfl⟩

theorem unescape?_eq_some_iff {cs out : List Char} :
    Literal.unescape? cs = some out ↔ Items cs out :=
  items?_eq_some_iff (Nat.le_refl _)

/-! ## Quotes -/

theorem dropEncoding_eq_iff {quote : Char} (hquote : quote = '"' ∨ quote = '\'')
    {cs inside : List Char} : Literal.dropEncoding cs = quote :: inside ↔
      ∃ encoding ∈ encodings, cs = encoding ++ quote :: inside := by
  constructor
  · intro h
    unfold Literal.dropEncoding at h
    simp only [encodings, List.mem_cons, List.not_mem_nil]
    split at h <;> subst h <;> simp
  · simp only [encodings, List.mem_cons, List.not_mem_nil, or_false]
    rintro ⟨_, rfl | rfl | rfl | rfl | rfl, rfl⟩ <;> obtain rfl | rfl := hquote <;> rfl

theorem inside?_eq_some_iff {quote : Char} (hquote : quote = '"' ∨ quote = '\'')
    {cs inner : List Char} : Literal.inside? quote cs = some inner ↔
      ∃ encoding ∈ encodings, Trims cs (encoding ++ quote :: (inner ++ [quote])) := by
  simp only [← trim_eq_iff, ← dropEncoding_eq_iff hquote]
  unfold Literal.inside?
  split
  next hcs => simp [hcs]
  next c cs hcs =>
    rw [hcs, List.cons.injEq]
    constructor
    · intro h
      split at h
      next hquotes =>
        obtain ⟨inner, rfl⟩ := List.getLast?_eq_some_iff.mp hquotes.2
        simpa [hquotes.1] using h
      next => cases h
    · rintro ⟨rfl, rfl⟩
      simp

theorem unescape?_inside? {quote : Char} (hquote : quote = '"' ∨ quote = '\'')
    {cs out : List Char} :
    (Literal.inside? quote cs >>= Literal.unescape?) = some out ↔ Spells quote cs out := by
  simp only [Option.bind_eq_bind, Option.bind_eq_some_iff, inside?_eq_some_iff hquote,
    unescape?_eq_some_iff]
  constructor
  · rintro ⟨inner, ⟨encoding, he, hcs⟩, hitems⟩
    exact ⟨encoding, he, inner, hcs, hitems⟩
  · rintro ⟨encoding, he, inner, hcs, hitems⟩
    exact ⟨inner, ⟨encoding, he, hcs⟩, hitems⟩

theorem string?_eq_some_iff {cs out : List Char} :
    Literal.string? cs = some out ↔ Spells '"' cs out :=
  unescape?_inside? (.inl rfl)

theorem character?_eq_some_iff {cs : List Char} {c : Char} :
    Literal.character? cs = some c ↔ Spells '\'' cs [c] := by
  rw [← unescape?_inside? (.inr rfl), Literal.character?]
  split
  next hone => simp [hone]
  next hmany => simpa using hmany c

/-- A string literal has a value where its text, without the white space around it, is one of the
grammar, and that is what its items stand for. A character literal is one with one item. -/
theorem evaluate_quoted (text : String) :
    ((∀ v, evaluate (.literal .string text) = .ok v ↔
        ∃ out, Spells '"' text.toList out ∧ v = .string (String.ofList out)) ∧
      ∀ e, evaluate (.literal .string text) = .error e ↔ e = .invalidLiteral text ∧
        ¬∃ out, Spells '"' text.toList out) ∧
    (∀ v, evaluate (.literal .character text) = .ok v ↔
      ∃ c, Spells '\'' text.toList [c] ∧ v = .character c) ∧
    ∀ e, evaluate (.literal .character text) = .error e ↔ e = .invalidLiteral text ∧
      ¬∃ c, Spells '\'' text.toList [c] := by
  refine ⟨⟨fun v => ?_, fun e => ?_⟩, fun v => ?_, fun e => ?_⟩
  · rw [evaluate_literal_ok, Literal.value?, Option.map_eq_some_iff]
    simp only [string?_eq_some_iff, @eq_comm _ v]
  · rw [evaluate_literal_error, Literal.value?, Option.map_eq_none_iff,
      Option.eq_none_iff_forall_ne_some]
    simp only [ne_eq, string?_eq_some_iff, not_exists]
  · rw [evaluate_literal_ok, Literal.value?, Option.map_eq_some_iff]
    simp only [character?_eq_some_iff, @eq_comm _ v]
  · rw [evaluate_literal_error, Literal.value?, Option.map_eq_none_iff,
      Option.eq_none_iff_forall_ne_some]
    simp only [ne_eq, character?_eq_some_iff, not_exists]

/-- A fourth octal digit is an item by itself, a hexadecimal one is not. -/
example : ([" u8\"\\1018\\x0000041\"", "\"\\x110000\"", "\"", "L\"\\q\""].map fun text =>
    Literal.string? text.toList) = [some ['A', '8', 'A'], none, none, none] := by
  decide +kernel

end CythonDecls.Constant
