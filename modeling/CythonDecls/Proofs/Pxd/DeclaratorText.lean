import CythonDecls.Proofs.Graph.Closed
import CythonDecls.Proofs.Pxd.DeclaratorReader
import CythonDecls.Pxd.Declarator
import Mathlib.Data.List.Forall2

/-!
# Declarators read back

A declarator is built around the text that was built before, so the induction
over the type carries what the machine makes of that inner text: the name, and
the derivations between the name and the type that is left. Stars may still
wait at its end, but never in front of an array or a function, which is what
the parentheses are for.
-/

namespace CythonDecls.Pxd

/-! ## Cutting text into tokens -/

/-- The tokens that a character in front can become one with. -/
def Token.fuses : Token → Bool
  | .word _ => true
  | _ => false

theorem Token.cons_append (c : Char) (ts : List Token) {us : List Token}
    (hu : ∀ t ∈ us.head?, t.fuses = false) : cons c (ts ++ us) = cons c ts ++ us := by
  cases ts with
  | cons t ts => cases t <;> (simp only [List.cons_append]; unfold cons; split <;> simp_all)
  | nil =>
    cases us with
    | nil => simp
    | cons u us =>
      have hf : u.fuses = false := hu u (by simp)
      cases u with
      | word _ => cases hf
      | _ => simp only [List.nil_append]; unfold cons; split <;> simp_all

theorem Token.cons_letter {c : Char} (hc : isPunctuation c = false) (w : List Char)
    (ts : List Token) : cons c (.word w :: ts) = .word (c :: w) :: ts := by
  unfold cons
  split <;> first | cases hc | simp_all

theorem Token.cons_letter_nil {c : Char} (hc : isPunctuation c = false) :
    cons c [] = [.word [c]] := by
  unfold cons
  split <;> first | cases hc | simp_all

theorem tokens_append (cs : List Char) {ds : List Char}
    (hd : ∀ t ∈ (tokens ds).head?, t.fuses = false) :
    tokens (cs ++ ds) = tokens cs ++ tokens ds := by
  induction cs with
  | nil => rfl
  | cons c cs ih =>
    calc tokens (c :: cs ++ ds) = Token.cons c (tokens cs ++ tokens ds) := by rw [← ih]; rfl
      _ = tokens (c :: cs) ++ tokens ds := Token.cons_append c _ hd

theorem tokens_word {w : List Char} (hne : w ≠ []) (hw : ∀ c ∈ w, isPunctuation c = false) :
    tokens w = [.word w] := by
  induction w with
  | nil => exact absurd rfl hne
  | cons c w ih =>
    have hc := hw c List.mem_cons_self
    cases w with
    | nil => exact Token.cons_letter_nil hc
    | cons b w =>
      have ht := ih (List.cons_ne_nil _ _) fun d hd => hw d (List.mem_cons_of_mem _ hd)
      calc tokens (c :: b :: w) = Token.cons c (tokens (b :: w)) := rfl
        _ = [.word (c :: b :: w)] := by rw [ht, Token.cons_letter hc]

theorem tokens_star (cs : List Char) : tokens ('*' :: cs) = .star :: tokens cs := rfl

theorem tokens_opening (cs : List Char) : tokens ('(' :: cs) = .opening :: tokens cs := rfl

theorem tokens_blank (cs : List Char) : tokens (' ' :: cs) = .blank :: tokens cs := rfl

theorem tokens_comma (cs : List Char) : tokens (',' :: cs) = .comma :: tokens cs := rfl

theorem tokens_closing (cs : List Char) : tokens (')' :: cs) = .closing :: tokens cs := rfl

theorem tokens_append_blank (cs ds : List Char) :
    tokens (cs ++ ' ' :: ds) = tokens cs ++ .blank :: tokens ds :=
  tokens_append cs (by simp [tokens_blank, Token.fuses])

theorem tokens_append_closing (cs : List Char) : tokens (cs ++ [')']) = tokens cs ++ [.closing] :=
  tokens_append cs (by simp [tokens_closing, Token.fuses])

theorem tokens_brackets (cs ds : List Char) :
    tokens (cs ++ '[' :: (ds ++ [']'])) = tokens cs ++ .left :: (tokens ds ++ [.right]) := by
  have hright : tokens (ds ++ [']']) = tokens ds ++ [.right] :=
    tokens_append ds (by simp [tokens, Token.cons, Token.fuses])
  rw [← hright]
  exact tokens_append cs (by simp [tokens, Token.cons, Token.fuses])

theorem tokens_parentheses (cs ds : List Char) :
    tokens (cs ++ '(' :: (ds ++ [')'])) = tokens cs ++ .opening :: (tokens ds ++ [.closing]) := by
  rw [← tokens_append_closing, ← tokens_opening]
  exact tokens_append cs (by simp [tokens_opening, Token.fuses])

/-! ## Names that can be read -/

/-- A word of C. The dot is left out for the sake of `...`. -/
def Identifier (w : String) : Prop :=
  w.toList ≠ [] ∧ ∀ c ∈ w.toList, isPunctuation c = false ∧ c ≠ '.'

instance (w : String) : Decidable (Identifier w) :=
  decidable_of_iff
    (w.toList ≠ [] ∧ w.toList.all (fun c => isPunctuation c = false ∧ c ≠ '.') = true)
    (by simp only [Identifier, List.all_eq_true, decide_eq_true_eq])

/-- The name of a declaration, or none. -/
def Declarable (name : String) : Prop :=
  name = "" ∨ Identifier name ∧ name ∉ Specifier.keywords

/-- Keywords between blanks, or one word. -/
def Specifies (name : String) : Prop :=
  Identifier name ∨
    ∃ ws, ws ≠ [] ∧ (∀ w ∈ ws, w ∈ Specifier.keywords) ∧ name = " ".intercalate ws

theorem identifier_of_keyword {w : String} (hw : w ∈ Specifier.keywords) : Identifier w := by
  have hall : ∀ w ∈ Specifier.keywords, Identifier w := by decide +kernel
  exact hall w hw

theorem Identifier.tokens {w : String} (hw : Identifier w) : tokens w.toList = [.word w.toList] :=
  tokens_word hw.1 fun c hc => (hw.2 c hc).1

theorem Identifier.ne_dots {w : String} (hw : Identifier w) : w ≠ "..." := by
  rintro rfl
  exact (hw.2 '.' (by decide)).2 rfl

/-! ## The machine on the parts of a declarator -/

namespace Machine

theorem run_cons (m : Machine) (t : Token) (ts : List Token) :
    m.run (t :: ts) = (m.step t).bind fun m => m.run ts := rfl

theorem run_append (m : Machine) (ts us : List Token) :
    m.run (ts ++ us) = (m.run ts).bind fun m => m.run us := List.foldlM_append

theorem run_nil (m : Machine) : m.run [] = some m := rfl

section
variable {r : Reading} {waiting : List (Reading × List Param)}

theorem step_name {w : List Char} (hs : r.specifiers ≠ []) (ha : r.ahead = true)
    (hd : r.dim = none) (hk : String.ofList w ∉ Specifier.keywords) :
    step ⟨r, waiting, false⟩ (.word w) = some ⟨{ r with name := .ofList w }, waiting, false⟩ := by
  simp [step, take, Reading.next, hd, Reading.word, hs, hk, ha]

theorem step_star (ha : r.ahead = true) (hd : r.dim = none) :
    step ⟨r, waiting, false⟩ .star = some ⟨{ r with stars := r.stars + 1 }, waiting, false⟩ := by
  simp [step, take, Reading.next, hd, ha]

theorem step_left (hd : r.dim = none) :
    step ⟨r, waiting, false⟩ .left = some ⟨{ r with dim := some none }, waiting, false⟩ := by
  simp [step, take, Reading.next, hd]

theorem step_opening (hs : r.specifiers ≠ []) (hd : r.dim = none) :
    step ⟨r, waiting, false⟩ .opening = some ⟨r, waiting, true⟩ := by
  simp [step, take, hs, hd]

/-- A token that begins a declarator shows that a group was opened. -/
theorem run_group {t : Token} (ht : t = .star ∨ t = .opening ∨ t = .left) (ts : List Token)
    (hs : r.specifiers ≠ []) (ha : r.ahead = true) (hd : r.dim = none) :
    run ⟨r, waiting, false⟩ (.opening :: t :: ts) =
      run ⟨{ r with stars := 0, outer := r.stars :: r.outer }, waiting, false⟩ (t :: ts) := by
  have hblank : t ≠ .blank := by rintro rfl; simp at ht
  rw [run_cons, step_opening hs hd, Option.bind_some, run_cons, run_cons]
  simp [step, hblank, enter, ht, Reading.group, ha]

/-- A word, or the end, shows that arguments were opened. -/
theorem run_opening {t : Token} (ht : (∃ w, t = .word w) ∨ t = .closing) (ts : List Token)
    (hs : r.specifiers ≠ []) (hd : r.dim = none) :
    run ⟨r, waiting, false⟩ (.opening :: t :: ts) =
      run ⟨.start, (r, []) :: waiting, false⟩ (t :: ts) := by
  rw [run_cons, step_opening hs hd, Option.bind_some, run_cons, run_cons]
  obtain ⟨w, rfl⟩ | rfl := ht <;> rfl

end

end Machine

/-- Whatever is read so far in front of a declarator, the machine gets its name
and its derivations from `ts`, with `stars` more of them to come. -/
def Builds (ts : List Token) (name : String) (ds : List Derivation) (stars : Nat) : Prop :=
  ∀ (r : Reading) (waiting : List (Reading × List Param)),
    r.specifiers ≠ [] → r.ahead = true → r.dim = none →
    Machine.run ⟨r, waiting, false⟩ ts =
      some ⟨{ r with name := name, derivations := ds, stars := r.stars + stars }, waiting, false⟩

theorem Reading.ahead_iff {r : Reading} :
    r.ahead = true ↔ r.name = "" ∧ r.derivations = [] := by
  simp [Reading.ahead]

section
variable {ts : List Token} {name : String} {ds : List Derivation} {stars : Nat}

theorem Declarable.builds (hn : Declarable name) : Builds (tokens name.toList) name [] 0 := by
  intro r waiting hs ha hd
  obtain ⟨hname, hds⟩ := Reading.ahead_iff.mp ha
  rcases hn with rfl | ⟨hi, hk⟩
  · have ht : tokens "".toList = [] := rfl
    rw [ht, Machine.run_nil, ← hname, ← hds]
    rfl
  · have hk' : String.ofList name.toList ∉ Specifier.keywords := by rwa [String.ofList_toList]
    rw [hi.tokens, Machine.run_cons, Machine.step_name hs ha hd hk', String.ofList_toList, ← hds]
    rfl

theorem Builds.star (h : Builds ts name ds stars) :
    Builds (.star :: ts) name ds (stars + 1) := by
  intro r waiting hs ha hd
  have hr := h { r with stars := r.stars + 1 } waiting hs ha hd
  rw [Machine.run_cons, Machine.step_star ha hd, Option.bind_some, hr,
    Nat.add_comm stars, Nat.add_assoc]

theorem Builds.group (h : Builds (.star :: ts) name ds stars) :
    Builds (.opening :: .star :: (ts ++ [.closing])) name (ds ++ List.replicate stars .pointer)
      0 := by
  intro r waiting hs ha hd
  have hr := h { r with stars := 0, outer := r.stars :: r.outer } waiting hs ha hd
  rw [Machine.run_group (.inl rfl) _ hs ha hd, ← List.cons_append, Machine.run_append, hr,
    Nat.zero_add]
  rfl

/-! ## Brackets -/

theorem isPunctuation_digit {c : Char} (hc : c.isDigit = true) : isPunctuation c = false := by
  have hne : "*()[], ".toList.all (fun p => !p.isDigit) = true := by decide
  simp only [isPunctuation, List.contains_eq_mem, decide_eq_false_iff_not]
  intro hm
  have hnot := List.all_eq_true.mp hne c hm
  rw [hc] at hnot
  cases hnot

theorem Reading.dimension?_toDigits (n : UInt64) :
    Reading.dimension? (Nat.toDigits 10 n.toNat) = some n := by
  have hall : (Nat.toDigits 10 n.toNat).all Char.isDigit = true :=
    List.all_eq_true.mpr fun c hc => Nat.isDigit_of_mem_toDigits (by decide) (by decide) hc
  have hlt : n.toNat < UInt64.size := n.toNat_lt
  simp [Reading.dimension?, Nat.ofDigitChars_ten_toDigits, hall, hlt]

theorem tokens_dimText (n : UInt64) :
    tokens (toString n.toNat).toList = [.word (Nat.toDigits 10 n.toNat)] := by
  have ht : (toString n.toNat).toList = Nat.toDigits 10 n.toNat := Nat.toList_repr
  rw [ht]
  exact tokens_word Nat.toDigits_ne_nil fun c hc =>
    isPunctuation_digit (Nat.isDigit_of_mem_toDigits (by decide) (by decide) hc)

theorem Machine.run_brackets {r : Reading} {waiting : List (Reading × List Param)}
    (hd : r.dim = none) (dim : Option UInt64) :
    Machine.run ⟨r, waiting, false⟩
        (.left :: (tokens (Declarator.dimText dim).toList ++ [.right])) =
      some ⟨{ r with derivations := r.derivations ++ [.array dim] }, waiting, false⟩ := by
  obtain ⟨specifiers, name, ds, stars, outer, _⟩ := r
  cases hd
  rw [run_cons, step_left rfl, Option.bind_some]
  cases dim with
  | none => rfl
  | some n =>
    rw [show Declarator.dimText (some n) = toString n.toNat from rfl, tokens_dimText,
      List.singleton_append, run_cons]
    simp only [step, take, Reading.next, Reading.dimension?_toDigits, Option.map_some,
      Option.bind_some, Bool.not_false, if_true]
    rfl

theorem Builds.array (h : Builds ts name ds 0) (dim : Option UInt64) :
    Builds (ts ++ .left :: (tokens (Declarator.dimText dim).toList ++ [.right])) name
      (ds ++ [.array dim]) 0 := by
  intro r waiting hs ha hd
  rw [Machine.run_append, h r waiting hs ha hd, Option.bind_some]
  exact Machine.run_brackets (r := { r with name := name, derivations := ds }) hd dim

/-! ## Arguments -/

/-- The tokens of a whole declaration, which begin with a word. -/
def Declares (ts : List Token) (p : Param) : Prop :=
  (∃ w, ts.head? = some (.word w)) ∧
    ∀ waiting, ∃ r, Machine.run ⟨.start, waiting, false⟩ ts = some ⟨r, waiting, false⟩ ∧
      r.finish = some p

theorem Reading.of_finish {r : Reading} {p : Param} (h : r.finish = some p) :
    r.specifiers ≠ [] ∧ r.specifiers ≠ ["..."] ∧ r.outer = [] := by
  unfold finish at h
  split at h
  · cases h
  · rename_i hr
    simp only [not_or, Decidable.not_not] at hr
    exact ⟨hr.1, hr.2.1, hr.2.2.1⟩

theorem Reading.endArguments_of_finish {r : Reading} {p : Param} (h : r.finish = some p)
    (args : List Param) : r.endArguments args = some (.function (args ++ [p]) false) := by
  obtain ⟨hne, hdots, _⟩ := of_finish h
  unfold endArguments
  split
  · contradiction
  · contradiction
  · rw [h, Option.map_some]

theorem Machine.close_argument {r current : Reading} {args : List Param} {p : Param}
    {waiting : List (Reading × List Param)} (h : current.finish = some p) :
    close ⟨current, (r, args) :: waiting, false⟩ =
      some ⟨{ r with derivations := r.derivations ++ [.function (args ++ [p]) false] }, waiting,
        false⟩ := by
  obtain ⟨_, _, houter⟩ := Reading.of_finish h
  simp only [close, houter, Reading.endArguments_of_finish h, Option.map_some]

theorem argumentList_cons {text : String} {texts : List String} {variadic : Bool}
    (h : texts ≠ [] ∨ variadic = true) :
    (Declarator.argumentList (text :: texts) variadic).toList =
      text.toList ++ ',' :: ' ' :: (Declarator.argumentList texts variadic).toList := by
  have hne : (if variadic then texts ++ ["..."] else texts) ≠ [] := by
    rcases h with h | h
    · split <;> simp [h]
    · simp [h]
  have hcons : (if variadic then text :: texts ++ ["..."] else text :: texts) =
      text :: (if variadic then texts ++ ["..."] else texts) := by
    split <;> rfl
  simp only [Declarator.argumentList, hcons, String.intercalate_cons_of_ne_nil hne,
    String.toList_append]
  simp

theorem argumentList_last (text : String) {texts : List String} {variadic : Bool}
    (h : ¬(texts ≠ [] ∨ variadic = true)) :
    texts = [] ∧ variadic = false ∧ Declarator.argumentList (text :: texts) variadic = text := by
  obtain ⟨hnil, hfalse⟩ := not_or.mp h
  rw [Decidable.not_not] at hnil
  rw [Bool.not_eq_true] at hfalse
  subst hnil hfalse
  exact ⟨rfl, rfl, String.intercalate_singleton⟩

theorem Machine.run_arguments {texts : List String} {params : List Param}
    (h : List.Forall₂ (fun text p => Declares (tokens text.toList) p) texts params) :
    ∀ {args : List Param} {variadic : Bool}, (params = [] → args = [] ∨ variadic = true) →
      ∀ (r : Reading) (waiting : List (Reading × List Param)),
        run ⟨.start, (r, args) :: waiting, false⟩
            (tokens (Declarator.argumentList texts variadic).toList ++ [.closing]) =
          some ⟨{ r with derivations :=
            r.derivations ++ [.function (args ++ params) variadic] }, waiting, false⟩ := by
  induction h with
  | nil =>
    intro args variadic hargs r waiting
    rw [List.append_nil]
    cases variadic with
    | false =>
      obtain rfl : args = [] := (hargs rfl).resolve_right Bool.false_ne_true
      rfl
    | true => rfl
  | @cons text p texts params hp hps ih =>
    intro args variadic _ r waiting
    obtain ⟨current, hrun, hfinish⟩ := hp.2 ((r, args) :: waiting)
    by_cases hmore : texts ≠ [] ∨ variadic = true
    · -- a comma, a blank and the rest of the list
      have hrest : params = [] → args ++ [p] = [] ∨ variadic = true := fun hnil => by
        subst hnil
        cases hps
        exact .inr (hmore.resolve_left fun hne => hne rfl)
      have hcomma : step ⟨current, (r, args) :: waiting, false⟩ .comma =
          some ⟨.start, (r, args ++ [p]) :: waiting, false⟩ := by
        simp only [step, take, hfinish, Option.map_some, Bool.not_false, if_true]
      rw [argumentList_cons hmore, tokens_append _ (by simp [tokens_comma, Token.fuses]),
        tokens_comma, tokens_blank, List.append_assoc, run_append, hrun, Option.bind_some,
        List.cons_append, run_cons, hcomma, Option.bind_some, List.cons_append, run_cons]
      have := ih hrest r waiting
      rw [List.append_assoc] at this
      exact this
    · -- the last argument
      obtain ⟨rfl, rfl, htext⟩ := argumentList_last text hmore
      cases hps
      rw [htext, run_append, hrun, Option.bind_some, run_cons]
      exact congrArg (Option.bind · fun m => m.run []) (close_argument hfinish)

theorem arguments_head {texts : List String} {params : List Param}
    (h : List.Forall₂ (fun text p => Declares (tokens text.toList) p) texts params)
    (variadic : Bool) :
    ∃ t us, tokens (Declarator.argumentList texts variadic).toList ++ [.closing] = t :: us ∧
      ((∃ w, t = .word w) ∨ t = .closing) := by
  cases h with
  | nil =>
    cases variadic with
    | false => exact ⟨_, _, rfl, .inr rfl⟩
    | true => exact ⟨_, _, rfl, .inl ⟨_, rfl⟩⟩
  | @cons text p texts params hp hps =>
    obtain ⟨w, hw⟩ := hp.1
    obtain ⟨us, hus⟩ := List.head?_eq_some_iff.mp hw
    by_cases hmore : texts ≠ [] ∨ variadic = true
    · rw [argumentList_cons hmore, tokens_append _ (by simp [tokens_comma, Token.fuses]), hus]
      exact ⟨_, _, rfl, .inl ⟨w, rfl⟩⟩
    · rw [(argumentList_last text hmore).2.2, hus]
      exact ⟨_, _, rfl, .inl ⟨w, rfl⟩⟩

theorem Builds.function {texts : List String} {params : List Param} {variadic : Bool}
    (h : Builds ts name ds 0)
    (hp : List.Forall₂ (fun text p => Declares (tokens text.toList) p) texts params) :
    Builds (ts ++ .opening ::
        (tokens (Declarator.argumentList texts variadic).toList ++ [.closing])) name
      (ds ++ [.function params variadic]) 0 := by
  intro r waiting hs ha hd
  obtain ⟨t, us, hus, ht⟩ := arguments_head hp variadic
  have hrun : Machine.run ⟨.start, ({ r with name := name, derivations := ds }, []) :: waiting,
      false⟩ (t :: us) = _ := hus ▸ Machine.run_arguments hp (fun _ => .inl rfl) _ waiting
  rw [hus, Machine.run_append, h r waiting hs ha hd, Option.bind_some, Nat.add_zero,
    Machine.run_opening ht us (r := { r with name := name, derivations := ds }) hs hd, hrun,
    List.nil_append]

end

/-! ## The base of a type -/

theorem Specifies.words {name : String} (h : Specifies name) :
    ∃ w ws, name = " ".intercalate (w :: ws) ∧ Identifier w ∧
      (ws = [] ∨ w ∈ Specifier.keywords) ∧ ∀ v ∈ ws, v ∈ Specifier.keywords := by
  rcases h with h | ⟨ws, hne, hk, hname⟩
  · exact ⟨name, [], String.intercalate_singleton.symm, h, .inl rfl, by simp⟩
  · cases ws with
    | nil => exact absurd rfl hne
    | cons w ws =>
      have hw := hk w List.mem_cons_self
      exact ⟨w, ws, hname, identifier_of_keyword hw, .inr hw,
        fun v hv => hk v (List.mem_cons_of_mem _ hv)⟩

def Reading.specified (ws : List String) : Reading := { Reading.start with specifiers := ws }

theorem Machine.step_keyword {waiting : List (Reading × List Param)} {ws : List String}
    {w : String} (hws : ∀ v ∈ ws, v ∈ Specifier.keywords)
    (hw : ws = [] ∨ w ∈ Specifier.keywords) :
    step ⟨.specified ws, waiting, false⟩ (.word w.toList) =
      some ⟨.specified (ws ++ [w]), waiting, false⟩ := by
  have hall : ws.all Specifier.keywords.contains = true := by
    simpa [List.all_eq_true] using hws
  simp [step, take, Reading.next, Reading.specified, Reading.start, Reading.word, Reading.ahead,
    hw, hall]

theorem toList_words (w v : String) (ws : List String) :
    (" ".intercalate (w :: v :: ws)).toList =
      w.toList ++ ' ' :: (" ".intercalate (v :: ws)).toList := by
  rw [String.intercalate_cons_cons, String.toList_append, String.toList_append, List.append_assoc]
  rfl

theorem Machine.run_keywords (waiting : List (Reading × List Param)) :
    ∀ {ws : List String} {w : String} {before : List String},
      (∀ v ∈ before, v ∈ Specifier.keywords) → Identifier w →
      (before = [] ∧ ws = [] ∨ w ∈ Specifier.keywords) → (∀ v ∈ ws, v ∈ Specifier.keywords) →
      run ⟨.specified before, waiting, false⟩ (tokens (" ".intercalate (w :: ws)).toList) =
        some ⟨.specified (before ++ w :: ws), waiting, false⟩
  | [], w, before, hb, hi, hw, _ => by
    rw [String.intercalate_singleton, hi.tokens, run_cons,
      step_keyword hb (hw.imp_left And.left), Option.bind_some, run_nil]
  | v :: ws, w, before, hb, hi, hw, hk => by
    have hw : w ∈ Specifier.keywords := hw.resolve_left fun h => nomatch h.2
    have hv := hk v List.mem_cons_self
    have hb' : ∀ u ∈ before ++ [w], u ∈ Specifier.keywords := fun u hu => by
      rcases List.mem_append.mp hu with hu | hu
      · exact hb u hu
      · rw [List.mem_singleton.mp hu]
        exact hw
    have ih := run_keywords waiting hb' (identifier_of_keyword hv) (.inr hv)
      fun u hu => hk u (List.mem_cons_of_mem _ hu)
    rw [List.append_assoc] at ih
    rw [toList_words, tokens_append_blank, hi.tokens, List.singleton_append, run_cons,
      step_keyword hb (.inr hw), Option.bind_some, run_cons]
    exact ih

theorem tokens_words_head {w : String} (hi : Identifier w) (ws : List String) :
    (tokens (" ".intercalate (w :: ws)).toList).head? = some (.word w.toList) := by
  cases ws with
  | nil => rw [String.intercalate_singleton, hi.tokens]; rfl
  | cons v ws => rw [toList_words, tokens_append_blank, hi.tokens]; rfl

theorem toList_besideBase (base inner : String) :
    (Declarator.besideBase base inner).toList = base.toList ∧ inner = "" ∨
      (Declarator.besideBase base inner).toList = base.toList ++ ' ' :: inner.toList := by
  unfold Declarator.besideBase
  split
  · rename_i he
    exact .inl ⟨rfl, String.isEmpty_iff.mp he⟩
  · refine .inr ?_
    show (base ++ " " ++ inner).toList = _
    rw [String.toList_append, String.toList_append, List.append_assoc]
    rfl

theorem Builds.declares {base name inner : String} {ds : List Derivation} {stars : Nat}
    (hb : Specifies base) (h : Builds (tokens inner.toList) name ds stars) :
    Declares (tokens (Declarator.besideBase base inner).toList)
      ⟨name, derived (ds ++ List.replicate stars .pointer) (.base base)⟩ := by
  obtain ⟨w, ws, rfl, hi, hw, hk⟩ := hb.words
  have hspec (waiting) : Machine.run ⟨.start, waiting, false⟩
      (tokens (" ".intercalate (w :: ws)).toList) = some ⟨.specified (w :: ws), waiting, false⟩ :=
    Machine.run_keywords waiting (fun _ hv => nomatch hv) hi (hw.imp_left fun h => ⟨rfl, h⟩) hk
  -- the blank between the two says nothing to the machine
  have hrun (waiting) : Machine.run ⟨.start, waiting, false⟩
      (tokens (Declarator.besideBase (" ".intercalate (w :: ws)) inner).toList) =
        Machine.run ⟨.specified (w :: ws), waiting, false⟩ (tokens inner.toList) := by
    rcases toList_besideBase (" ".intercalate (w :: ws)) inner with ⟨ht, rfl⟩ | ht
    · rw [ht, hspec]
      rfl
    · rw [ht, tokens_append_blank, Machine.run_append, hspec, Option.bind_some]
      rfl
  have hfinish : ({ Reading.specified (w :: ws) with
      name := name, derivations := ds, stars := 0 + stars } : Reading).finish =
      some ⟨name, derived (ds ++ List.replicate stars .pointer)
        (.base (" ".intercalate (w :: ws)))⟩ := by
    simp [Reading.finish, Reading.specified, Reading.start, Reading.settled, hi.ne_dots]
  refine ⟨⟨w.toList, ?_⟩, fun waiting => ⟨_, (hrun waiting).trans (h _ waiting ?_ ?_ ?_), hfinish⟩⟩
  · rcases toList_besideBase (" ".intercalate (w :: ws)) inner with ⟨ht, -⟩ | ht
    · rw [ht, tokens_words_head hi]
    · rw [ht, tokens_append_blank, List.head?_append, tokens_words_head hi]
      rfl
  · exact List.cons_ne_nil _ _
  · rfl
  · rfl

end CythonDecls.Pxd
