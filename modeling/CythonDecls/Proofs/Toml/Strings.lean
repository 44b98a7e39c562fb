import CythonDecls.Toml.Reader
import CythonDecls.Proofs.Text.Lexemes

/-!
# Strings in double quotes

Characters that stand for themselves are read back as they are written. No other
text reads back as itself: an escape is longer than the character it stands for,
and what follows three quotes moves to the front.
-/

namespace CythonDecls.Toml.Reader

/-! ## Runs -/

section
variable {α β : Type} {w : Reader α} {cs rest : List Char}

theorem run_bind_eq_some {f : α → Reader β} {b : β} : (w >>= f).run cs = some (b, rest) ↔
    ∃ a mid, w.run cs = some (a, mid) ∧ (f a).run mid = some (b, rest) := by
  rw [StateT.run_bind]
  exact Option.bind_eq_some_iff.trans Prod.exists

theorem run_get_bind {f : List Char → Reader β} : (get >>= f).run cs = (f cs).run cs := rfl

theorem run_set_bind {f : PUnit → Reader β} : (set rest >>= f).run cs = (f ⟨⟩).run rest := rfl

end

variable {cs ds rest : List Char} {c : Char} {n : Nat}

/-! ## Escapes -/

/-- A character that stands for itself between double quotes. -/
def Stands (c : Char) : Prop := isPlain c = true ∧ c ≠ '"' ∧ c ≠ '\\'

instance (c : Char) : Decidable (Stands c) := inferInstanceAs (Decidable (_ ∧ _ ∧ _))

theorem stands_of_all (h : cs.all (decide <| Stands ·) = true) : ∀ c ∈ cs, Stands c :=
  fun c hc => of_decide_eq_true (List.all_eq_true.mp h c hc)

/-- A character that may follow the backslash of an escape. -/
def InEscape (c : Char) : Prop :=
  c ∈ ['b', 't', 'n', 'f', 'r', '"', '\\', 'u', 'U'] ∨ (Text.digit? 16 c).isSome = true

instance (c : Char) : Decidable (InEscape c) := inferInstanceAs (Decidable (_ ∨ _))

theorem codePoint_reads {count : Nat} (h : (escape.codePoint count).run cs = some (c, rest)) :
    ∃ digits, cs = digits ++ rest ∧ ∀ d ∈ digits, InEscape d := by
  unfold escape.codePoint at h
  rw [run_get_bind] at h
  obtain ⟨_, mid, hskip, h⟩ := run_bind_eq_some.mp h
  cases hskip
  split at h
  · rename_i m hm
    split at h
    · cases h
      refine ⟨cs.take count, (List.take_append_drop count cs).symm, fun d hd => .inr ?_⟩
      obtain ⟨v, hv⟩ := ((Text.digits?_eq_some_iff (by decide)).mp hm).digit d hd
      rw [(Text.digit?_eq_some_iff (by decide)).mpr hv]
      rfl
    · cases h
  · cases h

theorem escape_reads (h : escape.run cs = some (c, rest)) :
    ∃ used, cs = used ++ rest ∧ used ≠ [] ∧ ∀ d ∈ used, InEscape d := by
  have hone {d : Char} {cs : List Char} (hd : InEscape d) :
      ∃ used, d :: cs = used ++ cs ∧ used ≠ [] ∧ ∀ e ∈ used, InEscape e :=
    ⟨[d], rfl, nofun, fun e he => List.mem_singleton.mp he ▸ hd⟩
  have hmany {d : Char} {cs : List Char} {count : Nat} (hd : InEscape d)
      (h : (escape.codePoint count).run cs = some (c, rest)) :
      ∃ used, d :: cs = used ++ rest ∧ used ≠ [] ∧ ∀ e ∈ used, InEscape e := by
    obtain ⟨digits, rfl, hdigits⟩ := codePoint_reads h
    exact ⟨d :: digits, rfl, nofun, List.forall_mem_cons.mpr ⟨hd, hdigits⟩⟩
  unfold escape at h
  rw [run_get_bind] at h
  split at h
  case h_8 => exact hmany (by decide) h
  case h_9 => exact hmany (by decide) h
  case h_10 => cases h
  all_goals
    cases h
    exact hone (by decide)

/-! ## Strings of one line -/

theorem line_cons : (line '"' (n + 1)).run (c :: cs) =
    if c = '"' then some ([], cs)
    else if c = '\\' then do
      let (d, cs) ← escape.run cs
      let (ds, cs) ← (line '"' n).run cs
      return (d :: ds, cs)
    else if isPlain c then do
      let (ds, cs) ← (line '"' n).run cs
      return (c :: ds, cs)
    else none := by
  rw [line, run_get_bind]
  by_cases hq : c = '"'
  · simp only [hq, if_true]
    rfl
  · by_cases hb : c = '\\'
    · simp only [hb, if_true]
      rfl
    · by_cases hp : isPlain c = true
      · simp only [hq, hb, hp, if_true, if_false]
        rfl
      · simp only [hq, hb, hp, if_false]
        rfl

theorem line_stands (hs : ∀ c ∈ cs, Stands c) (hn : cs.length < n) :
    (line '"' n).run (cs ++ '"' :: rest) = some (cs, rest) := by
  induction cs generalizing n with
  | nil =>
    obtain ⟨n, rfl⟩ := Nat.exists_eq_add_one.mpr hn
    rw [List.nil_append, line_cons, if_pos rfl]
  | cons c cs ih =>
    obtain ⟨n, rfl⟩ := Nat.exists_eq_add_one.mpr (Nat.zero_lt_of_lt hn)
    obtain ⟨⟨hp, hq, hb⟩, hcs⟩ := List.forall_mem_cons.mp hs
    rw [List.cons_append, line_cons, if_neg hq, if_neg hb, if_pos hp,
      ih hcs (Nat.lt_of_succ_lt_succ hn)]
    rfl

theorem line_reads (h : (line '"' n).run cs = some (ds, rest)) :
    ∃ used, cs = used ++ '"' :: rest ∧ '\n' ∉ used ∧
      ((used = ds ∧ ∀ d ∈ ds, Stands d) ∨ ds.length < used.length) := by
  have hnewline : ¬InEscape '\n' ∧ isPlain '\n' = false := by decide
  induction n generalizing cs ds with
  | zero => cases h
  | succ n ih =>
    cases cs with
    | nil => cases h
    | cons c cs =>
      rw [line_cons] at h
      by_cases hq : c = '"'
      · rw [if_pos hq] at h
        cases h
        exact ⟨[], by rw [hq]; rfl, nofun, .inl ⟨rfl, nofun⟩⟩
      · rw [if_neg hq] at h
        by_cases hb : c = '\\'
        · rw [if_pos hb] at h
          obtain ⟨⟨d, mid⟩, hd, h⟩ := Option.bind_eq_some_iff.mp h
          obtain ⟨⟨ds, rest⟩, hds, h⟩ := Option.bind_eq_some_iff.mp h
          cases h
          obtain ⟨escaped, rfl, hne, hin⟩ := escape_reads hd
          obtain ⟨used, rfl, hline, hlen⟩ := ih hds
          refine ⟨c :: (escaped ++ used), by simp, ?_, .inr ?_⟩
          · have hfree : '\n' ∉ escaped := fun hmem => hnewline.1 (hin _ hmem)
            simp [hb, hfree, hline]
          · -- the backslash and what follows it stand for one character
            have hpos := List.length_pos_iff.mpr hne
            have hle : ds.length ≤ used.length :=
              hlen.elim (fun hd => hd.1 ▸ Nat.le_refl _) Nat.le_of_lt
            simp only [List.length_cons, List.length_append]
            omega
        · rw [if_neg hb] at h
          by_cases hp : isPlain c = true
          · rw [if_pos hp] at h
            obtain ⟨⟨ds, rest⟩, hds, h⟩ := Option.bind_eq_some_iff.mp h
            cases h
            obtain ⟨used, rfl, hline, hlen⟩ := ih hds
            have hc : '\n' ≠ c := fun he => Bool.false_ne_true (hnewline.2 ▸ he ▸ hp)
            refine ⟨c :: used, rfl, by simp [hc, hline], ?_⟩
            obtain ⟨rfl, hds⟩ | hlt := hlen
            · exact .inl ⟨rfl, List.forall_mem_cons.mpr ⟨⟨hp, hq, hb⟩, hds⟩⟩
            · exact .inr (Nat.succ_lt_succ hlt)
          · rw [if_neg hp] at h
            cases h

/-! ## Strings of many lines -/

theorem lineEnd_reads {ended : Bool} (h : lineEnd.run cs = some (ended, rest)) :
    (ended = false ∧ cs = rest) ∨
      ended = true ∧ (cs = '\n' :: rest ∨ cs = '\r' :: '\n' :: rest) := by
  unfold lineEnd at h
  rw [run_get_bind] at h
  split at h
  · cases h
    exact .inr ⟨rfl, .inl rfl⟩
  · cases h
    exact .inr ⟨rfl, .inr rfl⟩
  · cases h
    exact .inl ⟨rfl, rfl⟩

theorem continuation_reads {u : Unit} (h : continuation.run cs = some (u, rest)) :
    rest = cs.dropWhile isGap := by
  unfold continuation takeWhile at h
  obtain ⟨used, mid, hused, h⟩ := run_bind_eq_some.mp h
  cases hused
  split at h
  · cases h
  · split at h
    · cases h
      rfl
    · cases h

/-- The text of one character of a block. -/
inductive Piece : List Char → Char → Prop where
  | newline : Piece ['\n'] '\n'
  | returned : Piece ['\r', '\n'] '\n'
  | escaped {used : List Char} (c : Char) (hin : ∀ d ∈ used, InEscape d) : Piece ('\\' :: used) c
  | plain {c : Char} (hp : isPlain c = true) : Piece [c] c

theorem Piece.length_pos {used : List Char} {d : Char} (hp : Piece used d) : 0 < used.length := by
  cases hp <;> exact Nat.zero_lt_succ _

/-- Of three quotes or more the last three end a block. -/
theorem block_ends (hq : 3 ≤ (cs.takeWhile (· = '"')).length)
    (h : (block '"' (n + 1)).run cs = some (ds, rest)) :
    ∃ more, cs = List.replicate (more + 3) '"' ++ rest ∧ ds = List.replicate more '"' := by
  rw [block, run_get_bind] at h
  dsimp only at h
  rw [if_pos hq] at h
  obtain ⟨_, mid, hskip, h⟩ := run_bind_eq_some.mp h
  cases hskip
  split at h
  · cases h
    have hquotes : ∀ c ∈ cs.takeWhile (· = '"'), c = '"' := fun c hmem =>
      of_decide_eq_true (List.mem_takeWhile_imp (p := fun c => decide (c = '"')) hmem)
    refine ⟨_, ?_, rfl⟩
    rw [Nat.sub_add_cancel hq, ← List.eq_replicate_of_mem hquotes]
    exact (List.prefix_iff_eq_append.mp (List.takeWhile_prefix _)).symm
  · cases h

/-- A block ends, goes on behind the end of a line that is continued, or has one more
character. -/
theorem block_cases (h : (block '"' (n + 1)).run cs = some (ds, rest)) :
    (∃ more, cs = List.replicate (more + 3) '"' ++ rest ∧ ds = List.replicate more '"') ∨
    (∃ gap mid, cs = '\\' :: (gap ++ mid) ∧ (∀ c ∈ gap, isGap c = true) ∧
      (block '"' n).run mid = some (ds, rest)) ∨
    ∃ used mid d es, cs = used ++ mid ∧ Piece used d ∧ ds = d :: es ∧
      (block '"' n).run mid = some (es, rest) := by
  by_cases hq : 3 ≤ (cs.takeWhile (· = '"')).length
  · exact .inl (block_ends hq h)
  · rw [block, run_get_bind] at h
    dsimp only at h
    rw [if_neg hq] at h
    obtain ⟨ended, mid, hend, h⟩ := run_bind_eq_some.mp h
    obtain ⟨rfl, rfl⟩ | ⟨rfl, hmid⟩ := lineEnd_reads hend
    · cases cs with
      | nil => cases h
      | cons c cs =>
        rw [if_neg Bool.false_ne_true] at h
        dsimp only at h
        rw [run_set_bind] at h
        by_cases hb : c = '\\'
        · rw [if_pos ⟨hb, rfl⟩] at h
          by_cases hg : cs.head?.any isGap = true
          · rw [if_pos hg] at h
            obtain ⟨_, mid, hcont, h⟩ := run_bind_eq_some.mp h
            cases continuation_reads hcont
            refine .inr (.inl ⟨cs.takeWhile isGap, _, ?_, fun _ => List.mem_takeWhile_imp, h⟩)
            rw [List.takeWhile_append_dropWhile, hb]
          · rw [if_neg hg] at h
            obtain ⟨d, mid, hd, h⟩ := run_bind_eq_some.mp h
            obtain ⟨es, _, hes, h⟩ := run_bind_eq_some.mp h
            cases h
            obtain ⟨used, rfl, -, hin⟩ := escape_reads hd
            exact .inr (.inr ⟨'\\' :: used, mid, d, es, by rw [hb]; rfl, .escaped d hin, rfl, hes⟩)
        · rw [if_neg fun h => hb h.1] at h
          by_cases hp : isPlain c = true
          · rw [if_pos hp] at h
            obtain ⟨es, _, hes, h⟩ := run_bind_eq_some.mp h
            cases h
            exact .inr (.inr ⟨[c], cs, c, es, rfl, .plain hp, rfl, hes⟩)
          · rw [if_neg hp] at h
            cases h
    · rw [if_pos rfl] at h
      obtain ⟨es, _, hes, h⟩ := run_bind_eq_some.mp h
      cases h
      obtain rfl | rfl := hmid
      · exact .inr (.inr ⟨['\n'], mid, '\n', es, rfl, .newline, rfl, hes⟩)
      · exact .inr (.inr ⟨['\r', '\n'], mid, '\n', es, rfl, .returned, rfl, hes⟩)

/-- A character that is no part of an escape, of a gap or of the end of a string. -/
structure Inert (c : Char) : Prop where
  escape : ¬InEscape c
  gap : isGap c = false
  quote : '"' ≠ c
  backslash : '\\' ≠ c

section
variable (hc : Inert c)
include hc

theorem Inert.ne_of_isGap {d : Char} (hd : isGap d = true) : d ≠ c := fun he =>
  Bool.false_ne_true (hc.gap.symm.trans (he ▸ hd))

theorem Inert.not_mem {used : List Char} {d : Char} (hp : Piece used d) (hd : d ≠ c) :
    c ∉ used := by
  cases hp with
  | newline => simpa using hd.symm
  | plain hp => simpa using hd.symm
  | returned => simpa using ⟨(hc.ne_of_isGap (by decide)).symm, hd.symm⟩
  | escaped d hin =>
    rw [List.mem_cons, not_or]
    exact ⟨hc.backslash.symm, fun hmem => hc.escape (hin c hmem)⟩

/-- The first place of an inert character, or of the end, is in what is read not behind the
first place of the character in the text. -/
theorem block_inert (h : (block '"' n).run cs = some (ds, rest)) :
    (ds ++ ['"']).idxOf c ≤ cs.idxOf c := by
  induction n generalizing cs ds with
  | zero => cases h
  | succ n ih =>
    obtain ⟨more, rfl, rfl⟩ | ⟨gap, mid, rfl, hgap, hblock⟩ |
      ⟨used, mid, d, es, rfl, hp, rfl, hblock⟩ := block_cases h
    · have hfree (k : Nat) : c ∉ List.replicate k '"' := fun hmem =>
        hc.quote (List.eq_of_mem_replicate hmem).symm
      rw [List.idxOf_append_of_notMem (hfree _), List.idxOf_append_of_notMem (hfree _),
        List.idxOf_cons_ne _ hc.quote, List.length_replicate, List.length_replicate]
      simp only [List.idxOf_nil]
      omega
    · have hfree : c ∉ '\\' :: gap := by
        rw [List.mem_cons, not_or]
        exact ⟨hc.backslash.symm, fun hmem => hc.ne_of_isGap (hgap c hmem) rfl⟩
      have hskip : ('\\' :: (gap ++ mid)).idxOf c = ('\\' :: gap).length + mid.idxOf c :=
        List.idxOf_append_of_notMem hfree
      have hmid := ih hblock
      omega
    · rw [List.cons_append]
      by_cases hd : d = c
      · rw [hd, List.idxOf_cons_self]
        exact Nat.zero_le _
      · have hpos := hp.length_pos
        have hmid := ih hblock
        rw [List.idxOf_cons_ne _ hd, List.idxOf_append_of_notMem (hc.not_mem hp hd)]
        omega

end

/-! ## Both kinds -/

theorem run_startsWith_bind {β : Type} {front : List Char} {f : Bool → Reader β} :
    (startsWith front >>= f).run cs = (f (front.isPrefixOf cs)).run cs := rfl

theorem run_skip_bind {β : Type} {f : PUnit → Reader β} :
    (skip n >>= f).run cs = (f ⟨⟩).run (cs.drop n) := rfl

theorem string_line (hq : ¬['"', '"'] <+: cs) : (string '"').run ('"' :: cs) =
    ((line '"' (cs.length + 1)).run cs).map fun (ds, rest) => (String.ofList ds, rest) := by
  have hno : ['"', '"', '"'].isPrefixOf ('"' :: cs) = false := by
    rw [← Bool.not_eq_true, List.isPrefixOf_iff_prefix, List.cons_prefix_cons]
    exact fun h => hq h.2
  unfold string
  rw [run_get_bind, run_startsWith_bind, hno, if_neg Bool.false_ne_true, run_skip_bind]
  exact Option.map_eq_bind.symm

theorem string_block {s : String}
    (h : (string '"').run ('"' :: '"' :: '"' :: cs) = some (s, rest)) :
    ∃ ended mid ds, lineEnd.run cs = some (ended, mid) ∧ s = String.ofList ds ∧
      ((block '"' (cs.length + 3)).run mid) = some (ds, rest) := by
  unfold string at h
  rw [run_get_bind, run_startsWith_bind, if_pos (by rfl), run_skip_bind] at h
  obtain ⟨ended, mid, hended, h⟩ := run_bind_eq_some.mp h
  obtain ⟨ds, _, hds, h⟩ := run_bind_eq_some.mp h
  cases h
  exact ⟨ended, mid, ds, hended, rfl, hds⟩

theorem string_stands (hs : ∀ c ∈ cs, Stands c) (hr : rest.head? ≠ some '"') :
    (string '"').run ('"' :: (cs ++ '"' :: rest)) = some (String.ofList cs, rest) := by
  have hq : ¬['"', '"'] <+: cs ++ '"' :: rest := by
    intro hprefix
    cases cs with
    | nil =>
      obtain ⟨more, rfl⟩ := (List.cons_prefix_cons.mp hprefix).2
      exact hr rfl
    | cons c cs =>
      obtain ⟨rfl, -⟩ := List.cons_prefix_cons.mp hprefix
      exact (hs '"' List.mem_cons_self).2.1 rfl
  have hlen : cs.length < (cs ++ '"' :: rest).length + 1 := by
    rw [List.length_append]
    omega
  rw [string_line hq, line_stands hs hlen]
  rfl

theorem stands_of_string (hc : Inert c)
    (h : (string '"').run ('"' :: (cs ++ '"' :: '\n' :: c :: ds)) = some (String.ofList cs, rest)) :
    ∀ d ∈ cs, Stands d := by
  have hnewline : '\n' ≠ c := hc.ne_of_isGap (by decide)
  by_cases hq : ['"', '"'] <+: cs ++ '"' :: '\n' :: c :: ds
  · obtain ⟨text, htext⟩ := hq
    rw [← htext] at h
    obtain ⟨ended, mid, es, hended, hes, hblock⟩ := string_block h
    obtain rfl := String.ofList_injective hes
    have hplace := block_inert hc hblock
    have hmid : mid.idxOf c ≤ text.idxOf c := by
      obtain ⟨-, rfl⟩ | ⟨-, rfl | rfl⟩ := lineEnd_reads hended
      · exact Nat.le_refl _
      · rw [List.idxOf_cons_ne _ hnewline]
        omega
      · rw [List.idxOf_cons_ne _ (hc.ne_of_isGap (by decide)), List.idxOf_cons_ne _ hnewline]
        omega
    have htext : (cs ++ ['"'] ++ '\n' :: c :: ds).idxOf c = text.idxOf c + 2 := by
      rw [List.append_assoc, List.singleton_append, ← htext, List.cons_append, List.cons_append,
        List.nil_append, List.idxOf_cons_ne _ hc.quote, List.idxOf_cons_ne _ hc.quote]
    -- the text between the quotes would hold the character two places earlier than it is read
    by_cases hmem : c ∈ cs ++ ['"']
    · rw [List.idxOf_append_of_mem hmem] at htext
      omega
    · rw [List.idxOf_append_of_notMem hmem, List.idxOf_cons_ne _ hnewline,
        List.idxOf_cons_self] at htext
      rw [List.idxOf_eq_length hmem] at hplace
      omega
  · rw [string_line hq] at h
    obtain ⟨⟨es, mid⟩, hline, he⟩ := Option.map_eq_some_iff.mp h
    obtain ⟨hes, rfl⟩ := Prod.mk.inj he
    obtain rfl := String.ofList_injective hes
    obtain ⟨used, hused, hfree, ⟨rfl, hstands⟩ | hlt⟩ := line_reads hline
    · exact hstands
    · -- something longer would reach into the next line
      obtain ⟨more, rfl, hmore⟩ | ⟨more, rfl, -⟩ := List.append_eq_append_iff.mp hused
      · rcases more with _ | ⟨d, _ | ⟨e, more⟩⟩
        · exact absurd hlt (by simp)
        · simp at hmore
        · obtain rfl : '\n' = e := by simp_all
          exact absurd (by simp) hfree
      · exact absurd hlt (by simp)

end CythonDecls.Toml.Reader
