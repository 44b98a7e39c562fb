import CythonDecls.Proofs.Toml.Kept

/-!
# Documents of plain lines

A line of a plain document is blank, a comment, the header of a table at the top,
or one word under one key. Such a document is read as what its lines add, one
after the other.
-/

namespace CythonDecls.Toml

open Reader

structure BareKey (key : List Char) : Prop where
  nonempty : key ≠ []
  bare : ∀ c ∈ key, isBareKey c = true

instance (key : List Char) : Decidable (BareKey key) :=
  decidable_of_iff (key ≠ [] ∧ key.all isBareKey = true)
    ⟨fun h => ⟨h.1, List.all_eq_true.mp h.2⟩, fun h => ⟨h.1, List.all_eq_true.mpr h.2⟩⟩

/-- The text of a value: a string whose characters stand for themselves, or a boolean. -/
inductive Word : List Char → Value → Prop where
  | string {cs : List Char} (hs : ∀ c ∈ cs, Stands c) :
    Word ('"' :: (cs ++ ['"'])) (.string (.ofList cs))
  | true : Word "true".toList (.boolean true)
  | false : Word "false".toList (.boolean false)

inductive Line where
  | blank
  | comment (text : List Char)
  | header (key : List Char)
  | entry (key word : List Char) (value : Value)

namespace Line

def text : Line → List Char
  | blank => ['\n']
  | comment text => '#' :: (text ++ ['\n'])
  | header key => '[' :: (key ++ [']', '\n'])
  | entry key word _ => key ++ ([' ', '=', ' '] ++ (word ++ ['\n']))

def Plain : Line → Prop
  | blank => True
  | comment text => ∀ c ∈ text, isPlain c = true
  | header key => BareKey key
  | entry key word value => BareKey key ∧ Word word value

def add (d : Document) : Line → Option Document
  | blank => some d
  | comment _ => some d
  | header key => (openTable (.ofList key) d.entries).map (⟨·, [.ofList key]⟩)
  | entry key _ value => (atPath d.path (assign true [.ofList key] value) d.entries).map
    (⟨·, d.path⟩)

end Line

namespace Reader

variable {cs rest : List Char} {c : Char} {n : Nat}

/-! ## Parts of a line -/

section
variable {α β : Type} {f : α → Reader β}

theorem run_spaces_bind {f : Unit → Reader β} :
    (spaces >>= f).run cs = (f ()).run (cs.dropWhile isSpace) := rfl

theorem run_peek_bind {f : Option Char → Reader β} :
    (peek >>= f).run cs = (f cs.head?).run cs := rfl

theorem run_bind_of_eq {w : Reader α} {a : α} (h : w.run cs = some (a, rest)) :
    (w >>= f).run cs = (f a).run rest := by
  rw [StateT.run_bind, h]
  rfl

end

theorem restOfLine_newline : restOfLine.run ('\n' :: rest) = some ((), rest) := rfl

theorem restOfLine_comment {text : List Char} (ht : ∀ c ∈ text, isPlain c = true) :
    restOfLine.run ('#' :: (text ++ '\n' :: rest)) = some ((), rest) := by
  have hcomment : comment.run ('#' :: (text ++ '\n' :: rest)) = some ((), '\n' :: rest) := by
    have hdrop : (text ++ '\n' :: rest).dropWhile isPlain = '\n' :: rest :=
      Text.dropWhile_append ht fun c hc => Option.some.inj hc ▸ (by decide)
    exact congrArg (fun mid => some ((), mid)) hdrop
  unfold restOfLine
  rw [run_spaces_bind]
  exact (run_bind_of_eq hcomment).trans rfl

theorem ne_of_bare {d : Char} (hc : isBareKey c = true) (hd : isBareKey d = false) : c ≠ d :=
  fun he => Bool.false_ne_true (hd.symm.trans (he ▸ hc))

theorem isSpace_of_bare (hc : isBareKey c = true) : isSpace c = false := by
  simp [isSpace, ne_of_bare hc (d := ' ') (by decide), ne_of_bare hc (d := '\t') (by decide)]

theorem isBareKey_of_isSpace (hc : isSpace c = true) : isBareKey c = false := by
  by_contra hbare
  rw [isSpace_of_bare (Bool.eq_true_of_not_eq_false hbare)] at hc
  cases hc

theorem keyPart_bare {key : List Char} (hk : BareKey key)
    (hc : ∀ c ∈ rest.head?, isBareKey c = false) :
    keyPart.run (key ++ rest) = some (.ofList key, rest) := by
  obtain ⟨hne, hbare⟩ := hk
  obtain ⟨a, key, rfl⟩ := List.exists_cons_of_ne_nil hne
  have ha := hbare a List.mem_cons_self
  have htake := Text.takeWhile_append hbare hc
  have hdrop := Text.dropWhile_append hbare hc
  unfold keyPart
  rw [run_peek_bind]
  split
  · rename_i hq
    exact absurd (Option.some.inj hq) (ne_of_bare ha (by decide))
  · rename_i hq
    exact absurd (Option.some.inj hq) (ne_of_bare ha (by decide))
  · have hrun : (takeWhile isBareKey).run (a :: key ++ rest) = some (a :: key, rest) :=
      (congrArg₂ (fun front mid => some (front, mid)) htake hdrop)
    exact (run_bind_of_eq hrun).trans rfl

theorem key_bare {key : List Char} (hk : BareKey key) (gap : List Char)
    (hgap : ∀ c ∈ gap, isSpace c = true)
    (hc : isBareKey c = false ∧ isSpace c = false ∧ c ≠ '.') :
    Reader.key.run (key ++ (gap ++ c :: rest)) = some ([.ofList key], c :: rest) := by
  have hfront : (key ++ (gap ++ c :: rest)).dropWhile isSpace = key ++ (gap ++ c :: rest) := by
    obtain ⟨a, key, rfl⟩ := List.exists_cons_of_ne_nil hk.nonempty
    rw [List.cons_append, List.dropWhile_cons, isSpace_of_bare (hk.bare a List.mem_cons_self)]
    rfl
  have hpart : keyPart.run (key ++ (gap ++ c :: rest)) = some (.ofList key, gap ++ c :: rest) := by
    refine keyPart_bare hk fun d hd => ?_
    cases gap with
    | nil => exact Option.some.inj hd ▸ hc.1
    | cons e gap => exact Option.some.inj hd ▸ isBareKey_of_isSpace (hgap e List.mem_cons_self)
  have hback : (gap ++ c :: rest).dropWhile isSpace = c :: rest :=
    Text.dropWhile_append hgap fun d hd => Option.some.inj hd ▸ hc.2.1
  show (keyParts (77 + 1 + 1)).run _ = _
  unfold keyParts
  rw [run_spaces_bind, hfront, run_bind_of_eq hpart, run_spaces_bind, hback, run_peek_bind,
    List.head?_cons, if_neg fun he => hc.2.2 (Option.some.inj he)]
  rfl

theorem value_string : (value (n + 1)).run ('"' :: cs) =
    ((string '"').run ('"' :: cs)).map fun (s, rest) => (.string s, rest) := by
  unfold value
  rw [run_get_bind, run_peek_bind]
  exact Option.map_eq_bind.symm

theorem value_word {word : List Char} {v : Value} (hw : Word word v) :
    (value (n + 1)).run (word ++ '\n' :: rest) = some (v, '\n' :: rest) := by
  cases hw with
  | string hs =>
    rw [List.cons_append, List.append_assoc, value_string]
    rw [List.singleton_append, string_stands hs (by simp)]
    rfl
  | true => rfl
  | false => rfl

/-! ## Lines -/

theorem run_keep {result : Option Entries} {path : List String} :
    (keep result path).run rest = result.map fun es => (⟨es, path⟩, rest) := by
  cases result <;> rfl

theorem run_header {key : List Char} (hk : BareKey key) (d : Document) :
    (header d).run ('[' :: (key ++ ']' :: '\n' :: rest)) =
      (openTable (.ofList key) d.entries).map fun es => (⟨es, [.ofList key]⟩, rest) := by
  have hone : ['[', '['].isPrefixOf ('[' :: (key ++ ']' :: '\n' :: rest)) = false := by
    obtain ⟨a, key, rfl⟩ := List.exists_cons_of_ne_nil hk.nonempty
    have ha : '[' ≠ a := (ne_of_bare (hk.bare a List.mem_cons_self) (by decide)).symm
    simp [List.isPrefixOf, ha]
  have hkey : Reader.key.run (key ++ (']' :: '\n' :: rest)) =
      some ([.ofList key], ']' :: '\n' :: rest) := key_bare hk [] nofun (by decide)
  have hbracket : (expect (List.replicate 1 ']')).run (']' :: '\n' :: rest) =
      some ((), '\n' :: rest) := rfl
  unfold header
  rw [run_startsWith_bind, hone, if_neg Bool.false_ne_true]
  dsimp only
  rw [run_skip_bind, List.drop_one, List.tail_cons, run_bind_of_eq hkey, run_bind_of_eq hbracket,
    run_bind_of_eq restOfLine_newline]
  exact run_keep

theorem run_entry {key : List Char} (hk : BareKey key) (hc : ∀ c ∈ cs.head?, isSpace c = false)
    (d : Document) : (entry d).run (key ++ (' ' :: '=' :: ' ' :: cs)) = (do
      let v ← value depthBound
      restOfLine
      keep (atPath d.path (assign true [.ofList key] v) d.entries) d.path).run cs := by
  have hkey : Reader.key.run (key ++ (' ' :: '=' :: ' ' :: cs)) =
      some ([.ofList key], '=' :: ' ' :: cs) := key_bare hk [' '] (by simp [isSpace]) (by decide)
  have hequals : (expect ['=']).run ('=' :: ' ' :: cs) = some ((), ' ' :: cs) := rfl
  have hspaces : (' ' :: cs).dropWhile isSpace = cs := by
    show ([' '] ++ cs).dropWhile isSpace = cs
    exact Text.dropWhile_append (by simp [isSpace]) hc
  unfold entry
  rw [run_bind_of_eq hkey, run_bind_of_eq hequals, run_spaces_bind, hspaces]

theorem run_entry_word {key word : List Char} {v : Value} (hk : BareKey key) (hw : Word word v)
    (d : Document) : (entry d).run (key ++ (' ' :: '=' :: ' ' :: (word ++ '\n' :: rest))) =
      (atPath d.path (assign true [.ofList key] v) d.entries).map
        fun es => (⟨es, d.path⟩, rest) := by
  have hv : (value depthBound).run (word ++ '\n' :: rest) = some (v, '\n' :: rest) := value_word hw
  have hfront : ∀ c ∈ (word ++ '\n' :: rest).head?, isSpace c = false := by
    cases hw <;> exact fun c hc => Option.some.inj hc ▸ (by decide)
  rw [run_entry hk hfront, run_bind_of_eq hv, run_bind_of_eq restOfLine_newline]
  exact run_keep

theorem lines_comment {d : Document} :
    (lines (n + 1) d).run ('#' :: cs) = (restOfLine >>= fun _ => lines n d).run ('#' :: cs) := rfl

theorem lines_header {d : Document} :
    (lines (n + 1) d).run ('[' :: cs) = (header d >>= lines n).run ('[' :: cs) := rfl

theorem lines_entry {key : List Char} (hk : BareKey key) {d : Document} :
    (lines (n + 1) d).run (key ++ cs) = (entry d >>= lines n).run (key ++ cs) := by
  obtain ⟨a, key, rfl⟩ := List.exists_cons_of_ne_nil hk.nonempty
  have ha := hk.bare a List.mem_cons_self
  have hfront : (a :: key ++ cs).dropWhile isSpace = a :: key ++ cs := by
    rw [List.cons_append, List.dropWhile_cons, isSpace_of_bare ha, if_neg Bool.false_ne_true]
  conv_lhs => unfold lines
  rw [run_spaces_bind, hfront, run_peek_bind]
  split
  case h_1 h => cases h
  case h_6 => rfl
  all_goals
    rename_i h
    exact absurd (Option.some.inj h) (ne_of_bare ha (by decide))

theorem lines_line {l : Line} (hl : l.Plain) (d : Document) :
    (lines (n + 1) d).run (l.text ++ rest) = (l.add d).bind fun d' => (lines n d').run rest := by
  cases l with
  | blank => rfl
  | comment text =>
    rw [Line.text, List.cons_append, List.append_assoc, lines_comment]
    exact run_bind_of_eq (restOfLine_comment hl)
  | header key =>
    rw [Line.text, List.cons_append, List.append_assoc, lines_header, StateT.run_bind]
    rw [List.cons_append, List.singleton_append, run_header hl, Line.add, Option.bind_map]
    exact Option.bind_map
  | entry key word v =>
    obtain ⟨hk, hw⟩ := hl
    rw [Line.text, List.append_assoc, lines_entry hk, StateT.run_bind]
    simp only [List.cons_append, List.nil_append, List.append_assoc]
    rw [run_entry_word hk hw, Line.add, Option.bind_map]
    exact Option.bind_map

theorem lines_string {key cs rest : List Char} {n : Nat} {d last : Document} (hk : BareKey key)
    (h : (lines (n + 1) d).run (key ++ (' ' :: '=' :: ' ' :: '"' :: cs)) = some (last, rest)) :
    ∃ s mid es, (string '"').run ('"' :: cs) = some (s, mid) ∧
      atPath d.path (assign true [.ofList key] (.string s)) d.entries = some es ∧
        Keeps es last.entries := by
  rw [lines_entry hk] at h
  obtain ⟨d', _, hentry, h⟩ := run_bind_eq_some.mp h
  have hquote : ∀ c ∈ ('"' :: cs).head?, isSpace c = false := by simp [isSpace]
  rw [run_entry hk hquote] at hentry
  obtain ⟨v, mid, hvalue, hentry⟩ := run_bind_eq_some.mp hentry
  obtain ⟨_, _, -, hkeep⟩ := run_bind_eq_some.mp hentry
  obtain ⟨⟨s, _⟩, hs, hv⟩ :=
    Option.map_eq_some_iff.mp ((value_string (n := 79)).symm.trans hvalue)
  cases hv
  rw [run_keep] at hkeep
  obtain ⟨es, hes, hd⟩ := Option.map_eq_some_iff.mp hkeep
  cases hd
  exact ⟨s, mid, es, hs, hes, lines_keep n _ _ _ _ h⟩

theorem lines_text {ls : List Line} (hls : ∀ l ∈ ls, l.Plain) (hn : ls.length < n) (d : Document) :
    (lines n d).run (ls.flatMap Line.text) = (ls.foldlM Line.add d).map (·, []) := by
  induction ls generalizing n d with
  | nil =>
    obtain ⟨n, rfl⟩ := Nat.exists_eq_add_one.mpr hn
    rfl
  | cons l ls ih =>
    obtain ⟨n, rfl⟩ := Nat.exists_eq_add_one.mpr (Nat.zero_lt_of_lt hn)
    obtain ⟨hl, hls⟩ := List.forall_mem_cons.mp hls
    rw [List.flatMap_cons, lines_line hl, List.foldlM_cons]
    cases l.add d with
    | none => rfl
    | some d' => exact ih hls (Nat.lt_of_succ_lt_succ hn) d'

end Reader

theorem Line.length_text_pos (l : Line) : 0 < l.text.length := by
  cases l <;> simp [text]

theorem length_le_flatMap_text (ls : List Line) : ls.length ≤ (ls.flatMap Line.text).length := by
  induction ls with
  | nil => exact Nat.le_refl _
  | cons l ls ih =>
    have hl := l.length_text_pos
    rw [List.flatMap_cons, List.length_append, List.length_cons]
    omega

theorem Line.head?_text {l : Line} (hl : l.Plain) : l.text.head? ≠ some '\ufeff' := by
  cases l with
  | blank => decide
  | comment text => exact fun h => absurd (Option.some.inj h) (by decide)
  | header key => exact fun h => absurd (Option.some.inj h) (by decide)
  | entry key word v =>
    obtain ⟨a, key, rfl⟩ := List.exists_cons_of_ne_nil hl.1.nonempty
    exact fun h => ne_of_bare (hl.1.bare a List.mem_cons_self) (by decide) (Option.some.inj h)

theorem read?_eq {s : String} (hs : s.toList.head? ≠ some '\ufeff') :
    read? s = ((lines (s.toList.length + 1) ⟨[], []⟩).run s.toList).map (·.1.entries) := by
  unfold read?
  split
  · rename_i h
    exact absurd (congrArg List.head? h) hs
  · rfl

theorem read?_lines {s : String} {ls : List Line} (hls : ∀ l ∈ ls, l.Plain)
    (hs : s.toList = ls.flatMap Line.text) :
    read? s = (ls.foldlM Line.add ⟨[], []⟩).map (·.entries) := by
  have hmark : s.toList.head? ≠ some '\ufeff' := by
    rw [hs]
    cases ls with
    | nil => exact nofun
    | cons l ls =>
      rw [List.flatMap_cons,
        List.head?_append_of_ne_nil _ (List.length_pos_iff.mp l.length_text_pos)]
      exact Line.head?_text (hls l List.mem_cons_self)
  have hn : ls.length < s.toList.length + 1 := by
    rw [hs]
    exact Nat.lt_succ_of_le (length_le_flatMap_text ls)
  rw [read?_eq hmark, hs, lines_text hls (hs ▸ hn), Option.map_map]
  rfl

end CythonDecls.Toml
