import CythonDecls.Proofs.Translation.Recursion

/-!
# Reading a type back from the graph

`Denotes` says that a node has the structure of a type as it was written, where
the single words are looked up in a table of typedefs. Growth of the graph
keeps it, since pointers, arrays and functions never change and an aggregate
keeps its tag.
-/

namespace CythonDecls

def namedTypedef? (typedefs : Table String Handle) : List String → Option Handle
  | [name] => typedefs.find? name
  | _ => none

def DenotesWords (typedefs : Table String Handle) (g : Graph) (words : List String)
    (h : Handle) : Prop :=
  match namedTypedef? typedefs words with
  | some k => h = k ∧ ∃ d, g.get? h = some (.typedef d) ∧ words = [d.name]
  | none => g.get? h = some (.fundamental (.ofKey (Specifier.canonicalKey words)))

mutual
/-- The node of `h` has the structure of a type. -/
def Denotes (typedefs : Table String Handle) (g : Graph) : TypeExpr → Handle → Prop
  | .pointer target, h => ∃ k, g.get? h = some (.pointer k) ∧ Denotes typedefs g target k
  | .array target dim, h => ∃ k, g.get? h = some (.array k dim) ∧ Denotes typedefs g target k
  | .identifier words, h => DenotesWords typedefs g words h
  | .container kind ⟨tag, _, _⟩, h =>
    ∃ c, g.get? h = some (.container kind c) ∧ (tag.isSome → c.tag = tag)
  | .enumeration ⟨tag, _, _⟩, h =>
    ∃ e, g.get? h = some (.enumeration e) ∧ (tag.isSome → e.tag = tag)
  | .function ⟨returns, params, variadic⟩, h =>
    ∃ f, g.get? h = some (.function f) ∧ f.variadic = variadic ∧
      Denotes typedefs g returns f.returns ∧ DenotesParams typedefs g params f.arguments

/-- The arguments are the parameters, in their order and under their names. -/
def DenotesParams (typedefs : Table String Handle) (g : Graph) :
    List Declaration → List Argument → Prop
  | [], args => args = []
  | ⟨name, type, _⟩ :: ds, args =>
    ∃ a rest, args = a :: rest ∧ a.name = name ∧ Denotes typedefs g type a.type ∧
      DenotesParams typedefs g ds rest
end

section
variable {typedefs : Table String Handle} {g g' : Graph}

theorem DenotesWords.grow (hg : g.Grows g') {words : List String} {h : Handle}
    (hd : DenotesWords typedefs g words h) : DenotesWords typedefs g' words h := by
  unfold DenotesWords at hd ⊢
  split
  · rename_i k hk
    rw [hk] at hd
    obtain ⟨hh, d, hd, hw⟩ := hd
    obtain ⟨d', hd', hn⟩ := hg.typedef hd
    exact ⟨hh, d', hd', by rw [hw, hn]⟩
  · rename_i hk
    rw [hk] at hd
    exact hg.fundamental hd

mutual
theorem Denotes.grow (hg : g.Grows g') : ∀ (ty : TypeExpr) (h : Handle),
    Denotes typedefs g ty h → Denotes typedefs g' ty h
  | .pointer target, h, hd => by
    unfold Denotes at hd ⊢
    obtain ⟨k, hn, hk⟩ := hd
    exact ⟨k, hg.pointer hn, Denotes.grow hg target k hk⟩
  | .array target dim, h, hd => by
    unfold Denotes at hd ⊢
    obtain ⟨k, hn, hk⟩ := hd
    exact ⟨k, hg.array hn, Denotes.grow hg target k hk⟩
  | .identifier words, h, hd => by
    unfold Denotes at hd ⊢
    exact hd.grow hg
  | .container kind ⟨tag, ms, location⟩, h, hd => by
    unfold Denotes at hd ⊢
    obtain ⟨c, hn, htag⟩ := hd
    obtain ⟨c', hn', htag'⟩ := hg.container hn
    exact ⟨c', hn', fun ht => htag'.trans (htag ht)⟩
  | .enumeration ⟨tag, es, location⟩, h, hd => by
    unfold Denotes at hd ⊢
    obtain ⟨e, hn, htag⟩ := hd
    obtain ⟨e', hn', htag'⟩ := hg.enumeration hn
    exact ⟨e', hn', fun ht => htag'.trans (htag ht)⟩
  | .function ⟨returns, params, variadic⟩, h, hd => by
    unfold Denotes at hd ⊢
    obtain ⟨f, hn, hv, hr, ha⟩ := hd
    exact ⟨f, hg.function hn, hv, Denotes.grow hg returns _ hr, DenotesParams.grow hg params _ ha⟩

theorem DenotesParams.grow (hg : g.Grows g') : ∀ (ds : List Declaration) (args : List Argument),
    DenotesParams typedefs g ds args → DenotesParams typedefs g' ds args
  | [], args, hd => hd
  | ⟨name, type, location⟩ :: ds, args, hd => by
    unfold DenotesParams at hd ⊢
    obtain ⟨a, rest, hargs, hname, ht, hrest⟩ := hd
    exact ⟨a, rest, hargs, hname, Denotes.grow hg type _ ht, DenotesParams.grow hg ds rest hrest⟩
end

theorem DenotesWords.congr {typedefs' : Table String Handle}
    (ht : ∀ name, typedefs'.find? name = typedefs.find? name) {words : List String} {h : Handle}
    (hd : DenotesWords typedefs g words h) : DenotesWords typedefs' g words h := by
  have hnamed : namedTypedef? typedefs' words = namedTypedef? typedefs words := by
    unfold namedTypedef?
    split
    · exact ht _
    · rfl
  unfold DenotesWords at hd ⊢
  rwa [hnamed]

mutual
theorem Denotes.congr {typedefs' : Table String Handle}
    (ht : ∀ name, typedefs'.find? name = typedefs.find? name) : ∀ (ty : TypeExpr) (h : Handle),
    Denotes typedefs g ty h → Denotes typedefs' g ty h
  | .pointer target, h, hd => by
    unfold Denotes at hd ⊢
    obtain ⟨k, hn, hk⟩ := hd
    exact ⟨k, hn, Denotes.congr ht target k hk⟩
  | .array target dim, h, hd => by
    unfold Denotes at hd ⊢
    obtain ⟨k, hn, hk⟩ := hd
    exact ⟨k, hn, Denotes.congr ht target k hk⟩
  | .identifier words, h, hd => by
    unfold Denotes at hd ⊢
    exact hd.congr ht
  | .container kind ⟨tag, ms, location⟩, h, hd => by
    unfold Denotes at hd ⊢
    exact hd
  | .enumeration ⟨tag, es, location⟩, h, hd => by
    unfold Denotes at hd ⊢
    exact hd
  | .function ⟨returns, params, variadic⟩, h, hd => by
    unfold Denotes at hd ⊢
    obtain ⟨f, hn, hv, hr, ha⟩ := hd
    exact ⟨f, hn, hv, Denotes.congr ht returns _ hr, DenotesParams.congr ht params _ ha⟩

theorem DenotesParams.congr {typedefs' : Table String Handle}
    (ht : ∀ name, typedefs'.find? name = typedefs.find? name) :
    ∀ (ds : List Declaration) (args : List Argument),
      DenotesParams typedefs g ds args → DenotesParams typedefs' g ds args
  | [], args, hd => hd
  | ⟨name, type, location⟩ :: ds, args, hd => by
    unfold DenotesParams at hd ⊢
    obtain ⟨a, rest, hargs, hname, htype, hrest⟩ := hd
    exact ⟨a, rest, hargs, hname, Denotes.congr ht type _ htype,
      DenotesParams.congr ht ds rest hrest⟩
end

theorem denotes_indirection {d : Indirection} {target : TypeExpr} {h : Handle} :
    Denotes typedefs g (d.type target) h ↔
      ∃ k, g.get? h = some (d.node k) ∧ Denotes typedefs g target k := by
  cases d <;> rw [Indirection.type, Denotes] <;> rfl

/-- The nodes that a type may have. -/
def TypeExpr.fits : TypeExpr → Node → Bool
  | .pointer _, .pointer _ => true
  | .array .., .array .. => true
  | .identifier _, .typedef _ => true
  | .identifier _, .fundamental _ => true
  | .container .., .container .. => true
  | .enumeration _, .enumeration _ => true
  | .function _, .function _ => true
  | _, _ => false

theorem DenotesWords.fits {words : List String} {h : Handle}
    (hd : DenotesWords typedefs g words h) :
    ∃ n, g.get? h = some n ∧ (TypeExpr.identifier words).fits n = true := by
  unfold DenotesWords at hd
  split at hd
  · obtain ⟨_, d, hn, _⟩ := hd
    exact ⟨_, hn, rfl⟩
  · exact ⟨_, hd, rfl⟩

theorem Denotes.fits {ty : TypeExpr} {h : Handle} (hd : Denotes typedefs g ty h) :
    ∃ n, g.get? h = some n ∧ ty.fits n = true := by
  cases ty with
  | identifier words =>
    unfold Denotes at hd
    exact hd.fits
  | container kind spec =>
    obtain ⟨tag, ms, location⟩ := spec
    unfold Denotes at hd
    obtain ⟨c, hn, _⟩ := hd
    exact ⟨_, hn, rfl⟩
  | enumeration spec =>
    obtain ⟨tag, es, location⟩ := spec
    unfold Denotes at hd
    obtain ⟨e, hn, _⟩ := hd
    exact ⟨_, hn, rfl⟩
  | function sig =>
    obtain ⟨returns, params, variadic⟩ := sig
    unfold Denotes at hd
    obtain ⟨f, hn, _⟩ := hd
    exact ⟨_, hn, rfl⟩
  | pointer target =>
    unfold Denotes at hd
    obtain ⟨k, hn, _⟩ := hd
    exact ⟨_, hn, rfl⟩
  | array target dim =>
    unfold Denotes at hd
    obtain ⟨k, hn, _⟩ := hd
    exact ⟨_, hn, rfl⟩

theorem Denotes.lt {ty : TypeExpr} {h : Handle} (hd : Denotes typedefs g ty h) :
    h.index < g.size := by
  obtain ⟨n, hn, _⟩ := hd.fits
  exact Graph.lt_of_get? hn

theorem Denotes.aggregate {ty : TypeExpr} {h : Handle}
    (hd : Denotes typedefs g ty h) (ht : ty.isDefinition = true) :
    ∃ n, g.get? h = some n ∧ n.isAggregate = true := by
  obtain ⟨n, hn, hf⟩ := hd.fits
  refine ⟨n, hn, ?_⟩
  cases ty <;> cases n <;> simp_all [TypeExpr.fits, TypeExpr.isDefinition, Node.isAggregate]

theorem Denotes.of_typedef {ty : TypeExpr} {h : Handle} {d : Typedef}
    (hd : Denotes typedefs g ty h) (hn : g.get? h = some (.typedef d)) :
    ty = .identifier [d.name] := by
  obtain ⟨n, hn', hf⟩ := hd.fits
  rw [hn] at hn'
  cases hn'
  cases ty with
  | identifier words =>
    unfold Denotes DenotesWords at hd
    split at hd
    · obtain ⟨_, e, he, rfl⟩ := hd
      rw [hn] at he
      cases he
      rfl
    · rw [hn] at hd
      cases hd
  | _ => cases hf

theorem DenotesParams.lt : ∀ {ds : List Declaration} {args : List Argument},
    DenotesParams typedefs g ds args → ∀ a ∈ args, a.type.index < g.size
  | [], args, hd, a, ha => by
    unfold DenotesParams at hd
    rw [hd] at ha
    cases ha
  | ⟨name, type, location⟩ :: ds, args, hd, a, ha => by
    unfold DenotesParams at hd
    obtain ⟨b, rest, hargs, _, ht, hrest⟩ := hd
    rw [hargs] at ha
    rcases List.mem_cons.mp ha with h | h
    · rw [h]
      exact ht.lt
    · exact DenotesParams.lt hrest a h

theorem children_lt_of_denotes {f : Function} {typedefs' : Table String Handle} {returns : TypeExpr}
    {params : List Declaration} (hr : Denotes typedefs g returns f.returns)
    (ha : DenotesParams typedefs' g params f.arguments) :
    ∀ k ∈ (Node.function f).children, k.index < g.size := by
  intro k hk
  rcases List.mem_cons.mp hk with rfl | hk
  · exact hr.lt
  · obtain ⟨a, hmem, rfl⟩ := List.mem_map.mp hk
    exact ha.lt a hmem

end

end CythonDecls
