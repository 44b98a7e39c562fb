import CythonDecls.Json.Printer
import CythonDecls.Proofs.Json.Numbers

/-!
# Scanning what was printed

A printed value scans to its tokens, whatever stands before and after it, as
long as a blank or a punctuation mark comes next: a word or a number only ends
there. Texts are scanned character by character, each escape back to its
character.
-/

namespace CythonDecls.Json

/-! ## Tokens of values -/

mutual
def tokens : Json → List Token
  | .null => [.null]
  | .bool b => [.bool b]
  | .number lexeme => [.number lexeme]
  | .string text => [.string text]
  | .array [] => [.openArray, .closeArray]
  | .array (v :: vs) => .openArray :: (v.tokens ++ (itemsTokens vs ++ [.closeArray]))
  | .object [] => [.openObject, .closeObject]
  | .object ((k, v) :: fs) =>
    .openObject :: .string k :: .colon :: (v.tokens ++ (fieldsTokens fs ++ [.closeObject]))

def itemsTokens : List Json → List Token
  | [] => []
  | v :: vs => .comma :: (v.tokens ++ itemsTokens vs)

def fieldsTokens : List (Option String × Json) → List Token
  | [] => []
  | (k, v) :: fs => .comma :: .string k :: .colon :: (v.tokens ++ fieldsTokens fs)
end

/-! ## Steps -/

namespace Scanner

theorem run_cons (s : Scanner) (c : Char) (cs : List Char) :
    s.run (c :: cs) = (s.step c).bind fun s => s.run cs := rfl

theorem run_append (s : Scanner) (cs ds : List Char) :
    s.run (cs ++ ds) = (s.run cs).bind fun s => s.run ds := List.foldlM_append

end Scanner

/-- A word or a number ends in front of this character. -/
def delimiter (c : Char) : Bool := blank c || (Token.punctuation? c).isSome

section
variable {c : Char} {t : Token}

theorem delimiter_cases (hc : delimiter c = true) :
    c ∈ [' ', '\t', '\n', '\r', '[', ']', '\x7b', '\x7d', ',', ':'] := by
  unfold delimiter blank Token.punctuation? at hc
  split at hc <;> simp_all [or_assoc]

theorem bareChar_of_delimiter (hc : delimiter c = true) : bareChar c = false := by
  have hall : [' ', '\t', '\n', '\r', '[', ']', '\x7b', '\x7d', ',', ':'].all
      (fun c => !bareChar c) = true := by decide
  simpa using List.all_eq_true.mp hall c (delimiter_cases hc)

theorem delimiter_of_bareChar (hc : bareChar c = true) : delimiter c = false := by
  rw [← Bool.not_eq_true]
  intro hd
  rw [bareChar_of_delimiter hd] at hc
  cases hc

theorem quote_not_bareChar (hc : bareChar c = true) : c ≠ '"' := by
  rintro rfl
  revert hc
  decide

variable {acc : List Token}

theorem Scanner.step_blank (hc : blank c = true) :
    Scanner.step ⟨.between, acc⟩ c = some ⟨.between, acc⟩ := by
  simp [step, hc]

theorem Scanner.step_punctuation (hc : Token.punctuation? c = some t) :
    Scanner.step ⟨.between, acc⟩ c = some ⟨.between, t :: acc⟩ := by
  have hblank : blank c = false ∧ c ≠ '"' := by
    unfold Token.punctuation? at hc
    split at hc <;> first | exact ⟨by decide, by decide⟩ | cases hc
  simp [step, hblank, hc, emit]

theorem Scanner.step_bareChar (hc : bareChar c = true) :
    Scanner.step ⟨.between, acc⟩ c = some ⟨.bare [c], acc⟩ := by
  have hd := delimiter_of_bareChar hc
  simp only [delimiter, Bool.or_eq_false_iff, Option.isSome_eq_false_iff,
    Option.isNone_iff_eq_none] at hd
  simp [step, hd, quote_not_bareChar hc, hc]

/-- A word ends like the token that it is. -/
theorem Scanner.step_delimiter {held : List Char} (hc : delimiter c = true)
    (ht : Token.ofBare? held.reverse = some t) :
    Scanner.step ⟨.bare held, acc⟩ c = Scanner.step ⟨.between, t :: acc⟩ c := by
  have hbare := bareChar_of_delimiter hc
  cases hb : blank c with
  | true => simp [step, hbare, ht, hb, emit]
  | false =>
    obtain ⟨p, hp⟩ : ∃ p, Token.punctuation? c = some p := by
      simpa [delimiter, hb, Option.isSome_iff_exists] using hc
    rw [step_punctuation hp]
    simp [step, hbare, ht, hb, hp, emit]

end

/-! ## Scanning to tokens -/

def Delimited (rest : List Char) : Prop := ∃ c cs, rest = c :: cs ∧ delimiter c = true

/-- Between tokens, `cs` is scanned to `ts` if a delimiter comes next. -/
def Scans (cs : List Char) (ts : List Token) : Prop :=
  ∀ acc rest, Delimited rest →
    Scanner.run ⟨.between, acc⟩ (cs ++ rest) = Scanner.run ⟨.between, ts.reverse ++ acc⟩ rest

/-- With these characters in front, a delimiter still comes next. -/
def Delimits (cs : List Char) : Prop := ∀ rest, Delimited rest → Delimited (cs ++ rest)

namespace Delimits

variable {c : Char} {cs ds : List Char}

theorem nil : Delimits [] := fun _ hr => hr

theorem cons (hc : delimiter c = true) (cs : List Char) : Delimits (c :: cs) :=
  fun rest _ => ⟨c, cs ++ rest, rfl, hc⟩

theorem append (hc : Delimits cs) (hd : Delimits ds) : Delimits (cs ++ ds) := by
  intro rest hr
  rw [List.append_assoc]
  exact hc _ (hd rest hr)

end Delimits

namespace Scans

variable {c : Char} {t : Token} {cs ds : List Char} {ts us : List Token}

theorem nil : Scans [] [] := fun _ _ _ => rfl

theorem append (hc : Scans cs ts) (hd : Scans ds us) (hds : Delimits ds) :
    Scans (cs ++ ds) (ts ++ us) := by
  intro acc rest hr
  rw [List.append_assoc, hc acc _ (hds rest hr), hd _ rest hr, List.reverse_append,
    List.append_assoc]

theorem blank (hb : Json.blank c = true) (hc : Scans cs ts) : Scans (c :: cs) ts := by
  intro acc rest hr
  rw [List.cons_append, Scanner.run_cons, Scanner.step_blank hb, Option.bind_some, hc acc rest hr]

theorem punctuation (hp : Token.punctuation? c = some t) (hc : Scans cs ts) :
    Scans (c :: cs) (t :: ts) := by
  intro acc rest hr
  rw [List.cons_append, Scanner.run_cons, Scanner.step_punctuation hp, Option.bind_some,
    hc _ rest hr, List.reverse_cons, List.append_assoc]
  rfl

theorem newline (level : Nat) (hc : Scans cs ts) : Scans (newline level ++ cs) ts := by
  have hspaces (n : Nat) : Scans (List.replicate n ' ' ++ cs) ts := by
    induction n with
    | zero => exact hc
    | succ n ih => exact ih.blank rfl
  exact (hspaces (2 * level)).blank rfl

end Scans

/-! ## Words and numbers -/

theorem Scanner.run_bare {cs : List Char} (hcs : cs.all bareChar = true) :
    ∀ (held : List Char) (acc : List Token) (rest : List Char),
      Scanner.run ⟨.bare held, acc⟩ (cs ++ rest) =
        Scanner.run ⟨.bare (cs.reverse ++ held), acc⟩ rest := by
  induction cs with
  | nil => exact fun _ _ _ => rfl
  | cons c cs ih =>
    intro held acc rest
    rw [List.all_cons, Bool.and_eq_true] at hcs
    rw [List.cons_append, run_cons, show step ⟨.bare held, acc⟩ c = some ⟨.bare (c :: held), acc⟩ by
      simp [step, hcs.1], Option.bind_some, ih hcs.2]
    simp

theorem Scans.bare (cs : List Char) {t : Token} (hne : cs ≠ []) (hcs : cs.all bareChar = true)
    (ht : Token.ofBare? cs = some t) : Scans cs [t] := by
  rintro acc _ ⟨d, rest, rfl, hd⟩
  obtain ⟨c, cs, rfl⟩ := List.exists_cons_of_ne_nil hne
  rw [List.all_cons, Bool.and_eq_true] at hcs
  rw [List.cons_append, Scanner.run_cons, Scanner.step_bareChar hcs.1, Option.bind_some,
    Scanner.run_bare hcs.2, Scanner.run_cons,
      Scanner.step_delimiter hd (t := t) (by simpa using ht)]
  rfl

theorem Scans.number {lexeme : String} (hfits : fits lexeme = true) :
    Scans lexeme.toList [.number lexeme] := by
  cases hread : NumberParts.read? lexeme.toList with
  | none => simp [fits, hread] at hfits
  | some p =>
    have hchars := NumberParts.all_bareChar hread
    exact Scans.bare _ hchars.1 hchars.2 (Token.ofBare?_number hread)

/-! ## Texts -/

def Piece.of (c : Char) : Piece :=
  if c < ' ' ∧ (['\x08', '\t', '\n', '\x0c', '\r'].contains c) = false then .unit c.toNat
    else .char c

theorem hexDigit?_hexDigit : ∀ n < 16, hexDigit? (hexDigit n) = some n := by decide

theorem pieces_unit {n : Nat} (hh : highHalf n = false) (hl : lowHalf n = false)
    (ps : List Piece) : pieces (.unit n :: ps) = (pieces ps).map (Char.ofNat n :: ·) := by
  rw [pieces.eq_def]
  simp only [hh, hl]
  rfl

theorem pieces_of (cs : List Char) : pieces (cs.map Piece.of) = some cs := by
  induction cs with
  | nil => rfl
  | cons c cs ih =>
    rw [List.map_cons]
    by_cases hc : c < ' ' ∧ (['\x08', '\t', '\n', '\x0c', '\r'].contains c) = false
    · have hlt : c.toNat < 32 := hc.1
      rw [show Piece.of c = .unit c.toNat from if_pos hc, pieces_unit (by simp [highHalf]; omega)
        (by simp [lowHalf]; omega), ih, Option.map_some, Char.ofNat_toNat]
    · rw [show Piece.of c = .char c from if_neg hc, pieces, ih, Option.map_some]

namespace Scanner

section
variable {held : List Piece} {acc : List Token} {value d : Nat} {c : Char}

theorem step_hex (hd : hexDigit? c = some d) (left : Nat) :
    step ⟨.hex held (left + 1) value, acc⟩ c = some ⟨.hex held left (value * 16 + d), acc⟩ := by
  simp [step, hd]

theorem step_lastHex (hd : hexDigit? c = some d) :
    step ⟨.hex held 0 value, acc⟩ c = some ⟨.text (.unit (value * 16 + d) :: held), acc⟩ := by
  simp [step, hd]

end

theorem run_escapeChar (c : Char) (held : List Piece) (acc : List Token) (rest : List Char) :
    run ⟨.text held, acc⟩ (escapeChar c ++ rest) =
      run ⟨.text (.of c :: held), acc⟩ rest := by
  unfold escapeChar
  split
  · subst_vars; rfl
  split
  · subst_vars; rfl
  split
  · subst_vars; rfl
  split
  · subst_vars; rfl
  split
  · subst_vars; rfl
  split
  · subst_vars; rfl
  split
  · subst_vars; rfl
  rename_i hquote hslash hb ht hn hf hr
  split
  · rename_i hc
    have hlt : c.toNat < 32 := hc
    have hunit : Piece.of c = .unit c.toNat := by simp [Piece.of, hc, hb, ht, hn, hf, hr]
    have hhigh := hexDigit?_hexDigit (c.toNat / 16) (by omega)
    have hlow := hexDigit?_hexDigit (c.toNat % 16) (by omega)
    have hvalue : c.toNat / 16 * 16 + c.toNat % 16 = c.toNat := by omega
    show run ⟨.hex held 3 0, acc⟩
      ('0' :: '0' :: hexDigit (c.toNat / 16) :: hexDigit (c.toNat % 16) :: rest) = _
    rw [run_cons, step_hex rfl, Option.bind_some, run_cons, step_hex rfl, Option.bind_some,
      run_cons,
      step_hex hhigh, Option.bind_some, run_cons, step_lastHex hlow, Option.bind_some, hunit]
    simp only [Nat.sub_self, Nat.zero_mul, Nat.zero_add, hvalue]
  · rename_i hc
    have hchar : Piece.of c = .char c := by simp [Piece.of, hc]
    rw [hchar, List.singleton_append, run_cons]
    simp [step, hquote, hslash, hc]

theorem run_escaped (cs : List Char) : ∀ (held : List Piece) (acc : List Token) (rest : List Char),
    run ⟨.text held, acc⟩ (cs.flatMap escapeChar ++ rest) =
      run ⟨.text ((cs.map Piece.of).reverse ++ held), acc⟩ rest := by
  induction cs with
  | nil => exact fun _ _ _ => rfl
  | cons c cs ih =>
    intro held acc rest
    rw [List.flatMap_cons, List.append_assoc, run_escapeChar, ih]
    simp

end Scanner

theorem Scans.text (s : String) : Scans (printText (some s)) [.string (some s)] := by
  intro acc rest _
  have hpieces : ((pieces (s.toList.map Piece.of)).map String.ofList) = some s := by
    rw [pieces_of, Option.map_some, String.ofList_toList]
  rw [printText, quote, Option.getD_some, List.cons_append, List.cons_append, List.append_assoc,
    Scanner.run_cons]
  show Scanner.run ⟨.text [], acc⟩ _ = _
  rw [Scanner.run_escaped, List.append_nil, List.singleton_append, Scanner.run_cons]
  simp only [Scanner.step, if_true, Scanner.emit, List.reverse_reverse, hpieces]
  rfl

/-! ## Values -/

theorem delimits_printItems (level : Nat) (vs : List Json) : Delimits (printItems level vs) := by
  cases vs with
  | nil => exact .nil
  | cons v vs => exact .cons rfl _

theorem delimits_printFields (level : Nat) (fs : List (Option String × Json)) :
    Delimits (printFields level fs) := by
  cases fs with
  | nil => exact .nil
  | cons f fs => exact .cons rfl _

theorem Scans.close {c : Char} {t : Token} (level : Nat) (hp : Token.punctuation? c = some t) :
    Scans (Json.newline level ++ [c]) [t] := .newline level (.punctuation hp .nil)

theorem Scans.field {cs : List Char} {ts : List Token} (k : String) (hcs : Scans cs ts) :
    Scans (printText (some k) ++ (':' :: ' ' :: cs)) (.string (some k) :: .colon :: ts) :=
  (Scans.text k).append (.punctuation rfl (.blank rfl hcs)) (.cons rfl _)

mutual
theorem print_scans : ∀ (v : Json) (level : Nat), v.sound = true → Scans (v.print level) v.tokens
  | .null, _, _ => .bare "null".toList (by decide) (by decide) rfl
  | .bool true, _, _ => .bare "true".toList (by decide) (by decide) rfl
  | .bool false, _, _ => .bare "false".toList (by decide) (by decide) rfl
  | .number _, _, h => .number h
  | .string (some s), _, _ => .text s
  | .array [], _, _ => .punctuation rfl (.punctuation rfl .nil)
  | .array (v :: vs), level, h => by
    have hsound : v.sound = true ∧ itemsSound vs = true := by simpa [sound, itemsSound] using h
    have hitems := (printItems_scans vs (level + 1) hsound.2).append
      (.close (c := ']') level rfl) (.cons rfl _)
    have hvalue := (print_scans v (level + 1) hsound.1).append hitems
      ((delimits_printItems _ vs).append (.cons rfl _))
    rw [print, tokens]
    simp only [List.cons_append, List.append_assoc]
    exact .punctuation rfl (.newline _ hvalue)
  | .object [], _, _ => .punctuation rfl (.punctuation rfl .nil)
  | .object ((some k, v) :: fs), level, h => by
    have hsound : v.sound = true ∧ fieldsSound fs = true := by simpa [sound, fieldsSound] using h
    have hfields := (printFields_scans fs (level + 1) hsound.2).append
      (.close (c := '\x7d') level rfl) (.cons rfl _)
    have hvalue := (print_scans v (level + 1) hsound.1).append hfields
      ((delimits_printFields _ fs).append (.cons rfl _))
    rw [print, tokens]
    simp only [List.cons_append, List.append_assoc]
    exact .punctuation rfl (.newline _ (.field k hvalue))

theorem printItems_scans : ∀ (vs : List Json) (level : Nat), itemsSound vs = true →
    Scans (printItems level vs) (itemsTokens vs)
  | [], _, _ => .nil
  | v :: vs, level, h => by
    have hsound : v.sound = true ∧ itemsSound vs = true := by simpa [itemsSound] using h
    have hvalue := (print_scans v level hsound.1).append (printItems_scans vs level hsound.2)
      (delimits_printItems _ vs)
    rw [printItems, itemsTokens]
    simp only [List.cons_append, List.append_assoc]
    exact .punctuation rfl (.newline _ hvalue)

theorem printFields_scans : ∀ (fs : List (Option String × Json)) (level : Nat),
    fieldsSound fs = true → Scans (printFields level fs) (fieldsTokens fs)
  | [], _, _ => .nil
  | (some k, v) :: fs, level, h => by
    have hsound : v.sound = true ∧ fieldsSound fs = true := by simpa [fieldsSound] using h
    have hvalue := (print_scans v level hsound.1).append (printFields_scans fs level hsound.2)
      (delimits_printFields _ fs)
    rw [printFields, fieldsTokens]
    simp only [List.cons_append, List.append_assoc]
    exact .punctuation rfl (.newline _ (.field k hvalue))
end

/-- The end of the input is as good as a blank. -/
theorem Scanner.finish_of_blank {s : Scanner} {acc : List Token}
    (h : s.step ' ' = some ⟨.between, acc⟩) : s.finish = some acc.reverse := by
  obtain ⟨mode, tokens⟩ := s
  cases mode with
  | between =>
    cases h
    rfl
  | bare held =>
    cases ht : Token.ofBare? held.reverse with
    | none => simp [step, ht] at h
    | some t =>
      rw [step_delimiter rfl ht] at h
      cases h
      simp [finish, ht]
  | text held => cases h
  | escape held => cases h
  | hex held left value => cases h

theorem scan_pretty {v : Json} (hv : v.sound = true) : scan v.pretty.toList = some v.tokens := by
  have hrun := print_scans v 0 hv [] [' '] ⟨' ', [], rfl, rfl⟩
  rw [List.append_nil, Scanner.run_append] at hrun
  obtain ⟨s, hs, hblank⟩ := Option.bind_eq_some_iff.mp hrun
  obtain ⟨_, hblank, hrest⟩ := Option.bind_eq_some_iff.mp hblank
  cases hrest
  rw [scan, pretty, String.toList_ofList]
  apply Option.bind_eq_some_iff.mpr ⟨s, hs, ?_⟩
  rw [Scanner.finish_of_blank hblank, List.reverse_reverse]

end CythonDecls.Json
