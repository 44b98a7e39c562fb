import CythonDecls.FileSystem.Memory

/-!
# The end of a path

A path whose text ends in a character of a name leads to a place whose last
name ends in that character. So paths with different ends lead to different
places, whatever directories there are.
-/

namespace CythonDecls

namespace Path

section
variable {a c : Char} {l : List Char}

theorem pieces_nil : (Path.mk (.ofList [])).pieces = [""] := by
  simp [pieces]

theorem pieces_slash :
    (Path.mk (.ofList ('/' :: l))).pieces = "" :: (Path.mk (.ofList l)).pieces := by
  simp [pieces]

theorem pieces_cons {piece : String} {rest : List String} (ha : a ≠ '/')
    (h : (Path.mk (.ofList l)).pieces = piece :: rest) :
    (Path.mk (.ofList (a :: l))).pieces = .ofList (a :: piece.toList) :: rest := by
  unfold pieces at h ⊢
  simp only [String.toList_ofList, List.foldr_cons, ha, if_false] at h ⊢
  obtain ⟨first, others, hfold, hpiece, hrest⟩ := List.map_eq_cons_iff.mp h
  rw [hfold]
  simp [← hpiece, hrest]

theorem pieces_end (hslash : c ≠ '/') : l.getLast? = some c →
    ∃ name, (Path.mk (.ofList l)).pieces.getLast? = some name ∧ name.toList.getLast? = some c := by
  induction l with
  | nil => exact nofun
  | cons a l ih =>
    intro hl
    cases l with
    | nil =>
      obtain rfl : a = c := by simpa using hl
      exact ⟨.ofList [a], by rw [pieces_cons hslash pieces_nil]; rfl, by simp⟩
    | cons b l =>
      obtain ⟨name, hp, hlast⟩ := ih (by simpa using hl)
      cases hpieces : (Path.mk (.ofList (b :: l))).pieces with
      | nil =>
        rw [hpieces] at hp
        cases hp
      | cons first rest =>
        rw [hpieces] at hp
        by_cases ha : a = '/'
        · refine ⟨name, ?_, hlast⟩
          rw [ha, pieces_slash, hpieces]
          simpa using hp
        · rw [pieces_cons ha hpieces]
          cases rest with
          | nil =>
            obtain rfl : first = name := by simpa using hp
            exact ⟨.ofList (a :: first.toList), rfl, by simp [List.getLast?_cons, hlast]⟩
          | cons second rest => exact ⟨name, by simpa using hp, hlast⟩

theorem append_end (front : String) {text : String} (hc : text.toList.getLast? = some c) :
    (front ++ text).toList.getLast? = some c := by
  rw [String.toList_append, List.getLast?_append, hc]
  rfl

theorem join_end (dir : Path) {next : String} (hc : next.toList.getLast? = some c) :
    (dir.join next).text.toList.getLast? = some c := by
  unfold join
  split
  · exact hc
  · split
    · exact append_end dir.text hc
    · exact append_end (dir.text ++ "/") hc

end

end Path

namespace FileSystem

theorem place_end {fs : FileSystem} {p : Path} {place : Place} {c : Char}
    (hc : p.text.toList.getLast? = some c) (hslash : c ≠ '/') (hdot : c ≠ '.')
    (hp : fs.place p = .ok place) :
    ∃ name, place.getLast? = some name ∧ name.toList.getLast? = some c := by
  obtain ⟨name, hlast, hname⟩ := Path.pieces_end hslash hc
  rw [String.ofList_toList] at hlast
  refine ⟨name, ?_, hname⟩
  have hne : name.isEmpty = false := by
    by_cases he : name = ""
    · subst he
      cases hname
    · simpa using he
  obtain ⟨front, hpieces⟩ := List.getLast?_eq_some_iff.mp hlast
  have hnames : names p = front.filter (!·.isEmpty) ++ [name] := by
    simp [names, hpieces, hne]
  unfold FileSystem.place at hp
  cases ha : admits p with
  | error e =>
    rw [ha] at hp
    cases hp
  | ok _ =>
    rw [ha] at hp
    have hfollow : fs.follow (names p) = .ok place := by
      simpa [Bind.bind, Except.bind, hlast, hne] using hp
    unfold follow at hfollow
    rw [hnames, List.foldlM_append] at hfollow
    cases hmid : List.foldlM fs.step [] (front.filter (!·.isEmpty)) with
    | error e =>
      rw [hmid] at hfollow
      cases hfollow
    | ok mid =>
      rw [hmid] at hfollow
      have hstep : fs.step mid name = .ok place := by
        have h : (fs.step mid name >>= fun q => Pure.pure q) = .ok place := hfollow
        rwa [bind_pure] at h
      -- the name ends in `c`, so it is neither of the two that name no entry
      have hcur : name ≠ "." := by
        intro he
        subst he
        cases hname
        exact hdot rfl
      have hup : name ≠ ".." := by
        intro he
        subst he
        cases hname
        exact hdot rfl
      unfold step at hstep
      split at hstep
      · cases hstep
      · cases hstep
      · simp only [hcur, hup, if_false] at hstep
        split at hstep
        · cases hstep
        · cases hstep
          simp

end FileSystem

end CythonDecls
