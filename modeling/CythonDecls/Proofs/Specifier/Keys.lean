import CythonDecls.Specifier
import Mathlib.Data.List.Permutation
import Mathlib.Data.Multiset.Filter

/-!
# Canonical keys

Two lists of specifiers have one key exactly if they say the same: the sign,
how many lengths, and the other words in any order. The key is made of the
words of a normal form, and spaces keep these apart, so a key that is taken
apart again leads back to itself.
-/

namespace CythonDecls

namespace Specifier

/-! ## What a list says -/

/-- The words other than the signs and the lengths. Beside a length `int` says
nothing, and it is understood where there is nothing else at all. -/
def named (words : List String) : Multiset String :=
  let others := Multiset.filter (· ∉ ["signed", "unsigned", "long", "short"]) words
  if "long" ∈ words ∨ "short" ∈ words then others.filter (· ≠ "int")
  else if others = 0 then {"int"}
  else others

structure SameType (ws vs : List String) : Prop where
  unsigned : "unsigned" ∈ ws ↔ "unsigned" ∈ vs
  longs : ws.count "long" = vs.count "long"
  short : "short" ∈ ws ↔ "short" ∈ vs
  others : named ws = named vs

variable {ws vs : List String}

theorem SameType.of_perm (h : ws.Perm vs) : SameType ws vs where
  unsigned := h.mem_iff
  longs := h.count_eq "long"
  short := h.mem_iff
  others := by simp only [named, h.mem_iff, Multiset.coe_eq_coe.mpr h]

/-! ## The order of the words -/

theorem before_iff {a b : String} :
    before a b = true ↔ b = "_Complex" ∨ a ≠ "_Complex" ∧ a ≤ b := by
  unfold before
  by_cases ha : a = "_Complex" <;> simp [ha]

theorem before_trans (a b c : String) (h₁ : before a b = true) (h₂ : before b c = true) :
    before a c = true := by
  rw [before_iff] at h₁ h₂ ⊢
  obtain hc | ⟨hb, hbc⟩ := h₂
  · exact .inl hc
  · obtain ⟨ha, hab⟩ := h₁.resolve_left hb
    exact .inr ⟨ha, String.le_trans hab hbc⟩

theorem before_total (a b : String) : (before a b || before b a) = true := by
  rw [Bool.or_eq_true, before_iff, before_iff]
  by_cases ha : a = "_Complex"
  · simp [ha]
  · by_cases hb : b = "_Complex"
    · simp [hb]
    · simpa [ha, hb] using String.le_total a b

theorem before_antisymm (a b : String) (h₁ : before a b = true) (h₂ : before b a = true) :
    a = b := by
  rw [before_iff] at h₁ h₂
  by_cases ha : a = "_Complex"
  · have hb : b = "_Complex" := by simpa [ha] using h₁
    rw [ha, hb]
  · have hba := h₂.resolve_left ha
    exact String.le_antisymm (h₁.resolve_left hba.1).2 hba.2

theorem eq_of_pairwise_before {ws vs : List String} (hws : ws.Pairwise (before · ·))
    (hvs : vs.Pairwise (before · ·)) (h : (ws : Multiset String) = vs) : ws = vs :=
  List.Perm.eq_of_pairwise (fun a b _ _ => before_antisymm a b) hws hvs (Multiset.coe_eq_coe.mp h)

/-! ## Normal forms -/

theorem pairwise_rest (words : List String) : (normal words).rest.Pairwise (before · ·) :=
  List.pairwise_mergeSort before_trans before_total _

theorem sized_iff (words : List String) :
    (words.contains "short" || 0 < words.count "long") = true ↔
      "long" ∈ words ∨ "short" ∈ words := by
  simp [List.count_pos_iff, or_comm]

theorem coe_rest (words : List String) : ((normal words).rest : Multiset String) = named words := by
  have hothers : (words.filter (!isModifier ·) : Multiset String) =
      Multiset.filter (· ∉ ["signed", "unsigned", "long", "short"]) words := by
    rw [Multiset.filter_coe]
    congr 1
    apply List.filter_congr
    intro w _
    simp [isModifier, Bool.and_assoc]
  simp only [normal, Multiset.coe_eq_coe.mpr (List.mergeSort_perm _ _)]
  unfold named base
  rw [← hothers]
  by_cases hsized : "long" ∈ words ∨ "short" ∈ words
  · rw [if_pos ((sized_iff words).mpr hsized), if_pos hsized, Multiset.filter_coe]
  · rw [if_neg (mt (sized_iff words).mp hsized), if_neg hsized]
    by_cases hnil : words.filter (!isModifier ·) = []
    · simp [hnil]
    · simp [hnil]

theorem contains_eq_iff (w : String) : ws.contains w = vs.contains w ↔ (w ∈ ws ↔ w ∈ vs) := by
  rw [Bool.eq_iff_iff, List.contains_iff_mem, List.contains_iff_mem]

/-- Lists have one normal form exactly if they say the same. -/
theorem normal_eq_iff : normal ws = normal vs ↔ SameType ws vs := by
  constructor
  · intro h
    have hrest : ((normal ws).rest : Multiset String) = (normal vs).rest := by rw [h]
    rw [coe_rest, coe_rest] at hrest
    exact ⟨(contains_eq_iff _).mp (congrArg Normal.unsigned h), congrArg Normal.longs h,
      (contains_eq_iff _).mp (congrArg Normal.short h), hrest⟩
  · intro h
    have hrest : (normal ws).rest = (normal vs).rest := by
      apply eq_of_pairwise_before (pairwise_rest ws) (pairwise_rest vs)
      rw [coe_rest, coe_rest, h.others]
    rw [Normal.mk.injEq]
    exact ⟨(contains_eq_iff _).mpr h.unsigned, h.longs, (contains_eq_iff _).mpr h.short, hrest⟩

/-! ## Words of normal forms -/

/-- Normalising once more changes nothing: the words are in order, signs and lengths have been
taken out, and `int` stands only where it says something. -/
structure Normal.Canonical (n : Normal) : Prop where
  ordered : n.rest.Pairwise (before · ·)
  named : ∀ w ∈ n.rest, isModifier w = false
  settled : base (n.short || 0 < n.longs) n.rest = n.rest

theorem mem_base {sized : Bool} {w : String} (hw : w ∈ base sized ws) : w ∈ ws ∨ w = "int" := by
  unfold base at hw
  split at hw
  · exact .inl (List.mem_filter.mp hw).1
  · split at hw
    · exact .inr (List.mem_singleton.mp hw)
    · exact .inl hw

theorem base_mergeSort (sized : Bool) (words : List String) :
    base sized ((base sized words).mergeSort before) = (base sized words).mergeSort before := by
  cases sized with
  | true =>
    apply List.filter_eq_self.mpr
    intro w hw
    exact (List.mem_filter.mp (List.mem_mergeSort.mp hw)).2
  | false =>
    have hne : base false words ≠ [] := by
      by_cases hnil : words = [] <;> simp [base, hnil]
    have hsorted : ¬((base false words).mergeSort before).isEmpty = true := by
      rwa [List.isEmpty_iff, ← List.length_eq_zero_iff, List.length_mergeSort,
        List.length_eq_zero_iff]
    exact if_neg hsorted

theorem normal_canonical (words : List String) : (normal words).Canonical where
  ordered := pairwise_rest words
  named w hw := by
    obtain hw | hw := mem_base (List.mem_mergeSort.mp hw)
    · simpa using (List.mem_filter.mp hw).2
    · rw [hw]
      decide
  settled := base_mergeSort _ _

theorem Normal.mem_words {n : Normal} {w : String} :
    w ∈ n.words ↔ n.unsigned = true ∧ w = "unsigned" ∨ n.longs ≠ 0 ∧ w = "long" ∨
      n.short = true ∧ w = "short" ∨ w ∈ n.rest := by
  simp [words, List.mem_replicate]

section
variable {n : Normal} (hn : n.Canonical)
include hn

theorem Normal.Canonical.not_modifier {w : String} (hw : isModifier w = true) : w ∉ n.rest := by
  intro hmem
  simp [hn.named w hmem] at hw

theorem Normal.Canonical.normal_words : normal n.words = n := by
  have hunsigned : n.words.contains "unsigned" = n.unsigned := by
    have hrest : "unsigned" ∉ n.rest := hn.not_modifier (by decide)
    rw [Bool.eq_iff_iff, List.contains_iff_mem, mem_words]
    simp [hrest]
  have hshort : n.words.contains "short" = n.short := by
    have hrest : "short" ∉ n.rest := hn.not_modifier (by decide)
    rw [Bool.eq_iff_iff, List.contains_iff_mem, mem_words]
    simp [hrest]
  have hlongs : n.words.count "long" = n.longs := by
    have hrest : n.rest.count "long" = 0 := List.count_eq_zero.mpr (hn.not_modifier (by decide))
    cases hu : n.unsigned <;> cases hs : n.short <;> simp [words, hu, hs, hrest]
  have hfilter : n.words.filter (!isModifier ·) = n.rest := by
    have hrest : n.rest.filter (!isModifier ·) = n.rest := by
      apply List.filter_eq_self.mpr
      intro w hw
      simp [hn.named w hw]
    have hmodifier : ∀ w ∈ ["unsigned", "long", "short"], isModifier w = true := by decide
    cases hu : n.unsigned <;> cases hs : n.short <;> simp [words, hu, hs, hrest, hmodifier]
  simp only [normal, hunsigned, hshort, hlongs, hfilter, hn.settled,
    List.mergeSort_of_pairwise hn.ordered]

theorem Normal.Canonical.words_ne_nil : n.words ≠ [] := by
  intro hnil
  have hparts : n.unsigned = false ∧ n.longs = 0 ∧ n.short = false ∧ n.rest = [] := by
    simpa [words] using hnil
  obtain ⟨_, hlongs, hshort, hrest⟩ := hparts
  have hsettled := hn.settled
  rw [hlongs, hshort, hrest] at hsettled
  cases hsettled

end

/-! ## Keys -/

/-- The words of a text with single spaces between them. -/
def wordsOf (text : String) : List String := (text.split ' ').toList.map String.Slice.copy

theorem wordsOf_canonicalKey (hws : ∀ w ∈ ws, ' ' ∉ w.toList) :
    wordsOf (canonicalKey ws) = (normal ws).words := by
  have hwords : ∀ w ∈ (normal ws).words, ' ' ∉ w.toList := by
    intro w hw
    obtain ⟨_, rfl⟩ | ⟨_, rfl⟩ | ⟨_, rfl⟩ | hw := Normal.mem_words.mp hw
    · decide
    · decide
    · decide
    · obtain hw | rfl := mem_base (List.mem_mergeSort.mp hw)
      · exact hws w (List.mem_filter.mp hw).1
      · decide
  exact (String.toList_split_intercalate hwords).trans (if_neg (normal_canonical ws).words_ne_nil)

/-- The words of a key are those of the normal form, so that they lead back to it. -/
theorem canonicalKey_wordsOf (hws : ∀ w ∈ ws, ' ' ∉ w.toList) :
    canonicalKey (wordsOf (canonicalKey ws)) = canonicalKey ws := by
  rw [wordsOf_canonicalKey hws, canonicalKey, (normal_canonical ws).normal_words]
  rfl

/-- Two lists have one key exactly if they say the same, whatever the order of the words. -/
theorem canonicalKey_eq_iff {ws vs : List String} (hws : ∀ w ∈ ws, ' ' ∉ w.toList)
    (hvs : ∀ w ∈ vs, ' ' ∉ w.toList) :
    (canonicalKey ws = canonicalKey vs ↔ SameType ws vs) ∧
      (ws.Perm vs → canonicalKey ws = canonicalKey vs) := by
  have hkey {ws vs : List String} (h : SameType ws vs) : canonicalKey ws = canonicalKey vs := by
    unfold canonicalKey
    rw [normal_eq_iff.mpr h]
  refine ⟨⟨fun h => ?_, hkey⟩, fun h => hkey (.of_perm h)⟩
  have hwords := congrArg wordsOf h
  rw [wordsOf_canonicalKey hws, wordsOf_canonicalKey hvs] at hwords
  have hnormal := congrArg normal hwords
  rw [(normal_canonical ws).normal_words, (normal_canonical vs).normal_words] at hnormal
  exact normal_eq_iff.mp hnormal

/-- Beside `long` the word `int` is dropped, and so is `signed`. -/
theorem canonicalKey_eq_iff_complex :
    let ws := ["int", "_Complex", "unsigned", "long", "double"]
    let vs := ["double", "long", "unsigned", "signed", "_Complex"]
    (∀ w ∈ ws, ' ' ∉ w.toList) ∧ (∀ w ∈ vs, ' ' ∉ w.toList) ∧
      canonicalKey ws = "unsigned long double _Complex" ∧ SameType ws vs := by
  intro ws vs
  have hws : ∀ w ∈ ws, ' ' ∉ w.toList := by decide
  have hvs : ∀ w ∈ vs, ' ' ∉ w.toList := by decide
  have hkeys : canonicalKey ws = canonicalKey vs := by cbv
  exact ⟨hws, hvs, by cbv, (canonicalKey_eq_iff hws hvs).1.mp hkeys⟩

end Specifier

/-! ## Names of fundamental types -/

namespace Fundamental

theorem cName_ofKey (key : String) : (ofKey key).cName = key := by
  have htable : ∀ p ∈ table, p.2.cName = p.1 := by decide
  unfold ofKey
  cases hf : table.lookup key with
  | none => rfl
  | some t =>
    obtain ⟨before, behind, hsplit, _⟩ := List.lookup_eq_some_iff.mp hf
    exact htable (key, t) (by simp [hsplit])

open Specifier

/-- The printed name of a type spells that type. -/
theorem cName_spells {ws : List String} (hws : ∀ w ∈ ws, ' ' ∉ w.toList) :
    canonicalKey (wordsOf (ofKey (canonicalKey ws)).cName) = canonicalKey ws ∧
      ofKey (canonicalKey (wordsOf (ofKey (canonicalKey ws)).cName)) = ofKey (canonicalKey ws) := by
  have hkey : canonicalKey (wordsOf (ofKey (canonicalKey ws)).cName) = canonicalKey ws := by
    rw [cName_ofKey, canonicalKey_wordsOf hws]
  exact ⟨hkey, congrArg ofKey hkey⟩

theorem cName_spells_extension :
    (∀ w ∈ ["__int128", "unsigned"], ' ' ∉ w.toList) ∧
      ofKey (canonicalKey ["__int128", "unsigned"]) = .extension "unsigned __int128" ∧
      canonicalKey (wordsOf "unsigned __int128") = "unsigned __int128" := by
  have hws : ∀ w ∈ ["__int128", "unsigned"], ' ' ∉ w.toList := by decide
  have hkey : canonicalKey ["__int128", "unsigned"] = "unsigned __int128" := by cbv
  have hspells := (cName_spells hws).1
  rw [cName_ofKey, hkey] at hspells
  refine ⟨hws, ?_, hspells⟩
  rw [hkey]
  rfl

end Fundamental

end CythonDecls
