import CythonDecls.Proofs.Pxd.DeclaratorText

/-!
# The text of a declaration gives its type back

The type of a node is read from a closed graph as a tree, and the reader of
declarators gets that tree back from the text: the name, the base, and every
derivation with its dimension or its arguments. A text therefore declares one
name with one type.
-/

namespace CythonDecls.Pxd

/-! ## The type of a node -/

/-- The node is the name of a type and not made of other types. -/
def isBase : Node → Bool
  | .pointer _ => false
  | .array .. => false
  | .function _ => false
  | _ => true

mutual
/-- The node of `h` has the structure of a type. -/
def CType.Denotes (d : Declarator) : CType → Handle → Prop
  | .base name, h =>
    (∃ n, d.graph.get? h = some n ∧ isBase n = true) ∧ d.typeName h = .ok name
  | .pointer target, h => ∃ k, d.graph.get? h = some (.pointer k) ∧ target.Denotes d k
  | .array target dim, h => ∃ k, d.graph.get? h = some (.array k dim) ∧ target.Denotes d k
  | .function returns params variadic, h =>
    ∃ f, d.graph.get? h = some (.function f) ∧ f.variadic = variadic ∧
      returns.Denotes d f.returns ∧ ParamsDenote d params f.arguments

def ParamsDenote (d : Declarator) : List Param → List Argument → Prop
  | [], args => args = []
  | ⟨name, type⟩ :: ps, args =>
    ∃ a rest, args = a :: rest ∧ name = a.name.getD "" ∧ type.Denotes d a.type ∧
      ParamsDenote d ps rest
end

mutual
/-- Bases are specifiers or identifiers, and parameters have names of declarations. -/
def CType.Legible : CType → Prop
  | .base name => Specifies name
  | .pointer target => target.Legible
  | .array target _ => target.Legible
  | .function returns params _ => returns.Legible ∧ ParamsLegible params

def ParamsLegible : List Param → Prop
  | [] => True
  | ⟨name, type⟩ :: ps => Declarable name ∧ type.Legible ∧ ParamsLegible ps
end

section
variable {d : Declarator}

theorem typeName_ok {h : Handle} {n : Node} (hn : d.graph.get? h = some n) :
    ∃ name, d.typeName h = .ok name := by
  unfold Declarator.typeName
  cases d.names.find? h with
  | some name => exact ⟨name, rfl⟩
  | none => exact ⟨_, by simp only [Graph.get, hn]; rfl⟩

theorem exists_params {args : List Argument}
    (h : ∀ a ∈ args, ∃ t : CType, t.Denotes d a.type) : ∃ ps, ParamsDenote d ps args := by
  induction args with
  | nil => exact ⟨[], by unfold ParamsDenote; rfl⟩
  | cons a args ih =>
    obtain ⟨t, ht⟩ := h a List.mem_cons_self
    obtain ⟨ps, hps⟩ := ih fun b hb => h b (List.mem_cons_of_mem _ hb)
    refine ⟨⟨a.name.getD "", t⟩ :: ps, ?_⟩
    unfold ParamsDenote
    exact ⟨a, args, rfl, rfl, ht, hps⟩

/-- Every node of a closed graph has a type. -/
theorem exists_denotes (hg : d.graph.Closed) :
    ∀ (h : Handle), h.index < d.graph.size → ∃ t : CType, t.Denotes d h := by
  intro ⟨i⟩
  induction i using Nat.strongRecOn with
  | _ i ih =>
    intro hi
    obtain ⟨n, hn⟩ := Graph.get?_of_lt hi
    have hpart (k) (hk : k ∈ n.parts) : ∃ t : CType, t.Denotes d k := by
      have hlt := hg.descending _ _ hn k hk
      exact ih k.index hlt (Nat.lt_trans hlt hi)
    have hbase (hb : isBase n = true) : ∃ t : CType, t.Denotes d ⟨i⟩ := by
      obtain ⟨name, hname⟩ := typeName_ok hn
      refine ⟨.base name, ?_⟩
      unfold CType.Denotes
      exact ⟨⟨n, hn, hb⟩, hname⟩
    cases n with
    | pointer k =>
      obtain ⟨t, ht⟩ := hpart k (by simp [Node.parts])
      refine ⟨.pointer t, ?_⟩
      unfold CType.Denotes
      exact ⟨k, hn, ht⟩
    | array k dim =>
      obtain ⟨t, ht⟩ := hpart k (by simp [Node.parts])
      refine ⟨.array t dim, ?_⟩
      unfold CType.Denotes
      exact ⟨k, hn, ht⟩
    | function f =>
      obtain ⟨t, ht⟩ := hpart f.returns (by simp [Node.parts])
      obtain ⟨ps, hps⟩ := exists_params (d := d) fun a ha =>
        hpart a.type (List.mem_cons_of_mem _ (List.mem_map_of_mem ha))
      refine ⟨.function t ps f.variadic, ?_⟩
      unfold CType.Denotes
      exact ⟨f, hn, rfl, ht, hps⟩
    | _ => exact hbase rfl

theorem CType.Denotes.pointer {t : CType} {h k : Handle} (hn : d.graph.get? h = some (.pointer k))
    (ht : t.Denotes d h) : ∃ u, t = .pointer u ∧ u.Denotes d k := by
  cases t <;> simp_all [CType.Denotes, isBase]

theorem CType.Denotes.array {t : CType} {h k : Handle} {dim : Option UInt64}
    (hn : d.graph.get? h = some (.array k dim)) (ht : t.Denotes d h) :
    ∃ u, t = .array u dim ∧ u.Denotes d k := by
  cases t <;> simp_all [CType.Denotes, isBase]

theorem CType.Denotes.function {t : CType} {h : Handle} {f : Function}
    (hn : d.graph.get? h = some (.function f)) (ht : t.Denotes d h) :
    ∃ u ps, t = .function u ps f.variadic ∧ u.Denotes d f.returns ∧
      ParamsDenote d ps f.arguments := by
  cases t <;> simp_all [CType.Denotes, isBase]

theorem CType.Denotes.base {t : CType} {h : Handle} {n : Node} (hn : d.graph.get? h = some n)
    (hb : isBase n = true) (ht : t.Denotes d h) :
    ∃ name, t = .base name ∧ d.typeName h = .ok name := by
  cases t <;> simp_all [CType.Denotes]
  all_goals
    obtain ⟨_, rfl, _⟩ := ht
    cases hb

mutual
theorem CType.Denotes.unique : ∀ {t u : CType} {h : Handle},
    t.Denotes d h → u.Denotes d h → u = t
  | .base name, u, h, ht, hu => by
    unfold CType.Denotes at ht
    obtain ⟨⟨n, hn, hb⟩, hname⟩ := ht
    obtain ⟨other, rfl, hother⟩ := hu.base hn hb
    rw [hname] at hother
    cases hother
    rfl
  | .pointer t, u, h, ht, hu => by
    unfold CType.Denotes at ht
    obtain ⟨k, hn, ht⟩ := ht
    obtain ⟨v, rfl, hv⟩ := hu.pointer hn
    exact congrArg CType.pointer (CType.Denotes.unique ht hv)
  | .array t dim, u, h, ht, hu => by
    unfold CType.Denotes at ht
    obtain ⟨k, hn, ht⟩ := ht
    obtain ⟨v, rfl, hv⟩ := hu.array hn
    exact congrArg (CType.array · dim) (CType.Denotes.unique ht hv)
  | .function t ps variadic, u, h, ht, hu => by
    unfold CType.Denotes at ht
    obtain ⟨f, hn, rfl, ht, hps⟩ := ht
    obtain ⟨v, qs, rfl, hv, hqs⟩ := hu.function hn
    rw [CType.Denotes.unique ht hv, ParamsDenote.unique hps hqs]

theorem ParamsDenote.unique : ∀ {ps qs : List Param} {args : List Argument},
    ParamsDenote d ps args → ParamsDenote d qs args → qs = ps
  | [], qs, args, hp, hq => by
    unfold ParamsDenote at hp
    subst hp
    cases qs with
    | nil => rfl
    | cons q qs =>
      obtain ⟨name, t⟩ := q
      unfold ParamsDenote at hq
      obtain ⟨a, rest, hargs, _⟩ := hq
      cases hargs
  | ⟨name, t⟩ :: ps, qs, args, hp, hq => by
    unfold ParamsDenote at hp
    obtain ⟨a, rest, rfl, rfl, ht, hp⟩ := hp
    cases qs with
    | nil =>
      unfold ParamsDenote at hq
      cases hq
    | cons q qs =>
      obtain ⟨other, u⟩ := q
      unfold ParamsDenote at hq
      obtain ⟨b, rest', hargs, rfl, hu, hq⟩ := hq
      cases hargs
      rw [CType.Denotes.unique ht hu, ParamsDenote.unique hp hq]
end

/-! ## Building -/

theorem get_ok {g : Graph} {h : Handle} {n : Node} (hn : g.get? h = some n) : g.get h = .ok n := by
  unfold Graph.get
  rw [hn]

theorem build_pointer {h k : Handle} {m : Node} (hn : d.graph.get? h = some (.pointer k))
    (hm : d.graph.get? k = some m) (n : Nat) (inner : String) :
    d.build (n + 1) h inner = d.build n k (Declarator.pointerTo m inner) := by
  simp only [Declarator.build, get_ok hn, get_ok hm, bind, Except.bind]

theorem build_array {h k : Handle} {dim : Option UInt64}
    (hn : d.graph.get? h = some (.array k dim)) (n : Nat) (inner : String) :
    d.build (n + 1) h inner = d.build n k (inner ++ "[" ++ Declarator.dimText dim ++ "]") := by
  simp only [Declarator.build, get_ok hn, bind, Except.bind]
  rfl

theorem build_function {h : Handle} {f : Function} (hn : d.graph.get? h = some (.function f))
    (n : Nat) (inner : String) {texts : List String}
    (ht : f.arguments.mapM (fun a => d.build n a.type (a.name.getD "")) = .ok texts) :
    d.build (n + 1) h inner = d.build n f.returns
      (inner ++ "(" ++ Declarator.argumentList texts f.variadic ++ ")") := by
  simp only [Declarator.build, get_ok hn, ht, bind, Except.bind]
  rfl

theorem build_base {h : Handle} {m : Node} {base : String} (hn : d.graph.get? h = some m)
    (hb : isBase m = true) (ht : d.typeName h = .ok base) (n : Nat) (inner : String) :
    d.build (n + 1) h inner = .ok (Declarator.besideBase base inner) := by
  cases m with
  | pointer _ => cases hb
  | array _ _ => cases hb
  | function _ => cases hb
  | _ => simp only [Declarator.build, get_ok hn, ht, bind, Except.bind]; rfl

theorem toList_pointerTo (m : Node) (inner : String) :
    (Declarator.pointerTo m inner).toList =
      if Declarator.bindsTighter m then '(' :: '*' :: (inner.toList ++ [')'])
      else '*' :: inner.toList := by
  unfold Declarator.pointerTo
  split
  · show ("(*" ++ inner ++ ")").toList = _
    rw [String.toList_append, String.toList_append]
    rfl
  · show ("*" ++ inner).toList = _
    rw [String.toList_append]
    rfl

theorem toList_suffix (inner opening middle closing : String) :
    (inner ++ opening ++ middle ++ closing).toList =
      inner.toList ++ (opening.toList ++ (middle.toList ++ closing.toList)) := by
  simp only [String.toList_append, List.append_assoc]

/-- A pointer stands in front of the inner declarator, in a group where it is needed. -/
theorem Builds.pointerTo {inner name : String} {ds : List Derivation} {stars : Nat} (m : Node)
    (h : Builds (tokens inner.toList) name ds stars) :
    ∃ ds' stars', Builds (tokens (Declarator.pointerTo m inner).toList) name ds' stars' ∧
      ds' ++ List.replicate stars' .pointer = ds ++ List.replicate (stars + 1) .pointer ∧
      (Declarator.bindsTighter m = true → stars' = 0) := by
  rw [toList_pointerTo]
  split
  · refine ⟨ds ++ List.replicate (stars + 1) .pointer, 0, ?_, List.append_nil _, fun _ => rfl⟩
    rw [tokens_opening, tokens_star, tokens_append_closing]
    exact h.star.group
  · rename_i hb
    refine ⟨ds, stars + 1, ?_, rfl, fun ht => absurd ht hb⟩
    rw [tokens_star]
    exact h.star

theorem derived_append (ds : List Derivation) (d : Derivation) (t : CType) :
    derived (ds ++ [d]) t = derived ds (d.of t) := by
  simp only [derived, List.foldr_append, List.foldr_cons, List.foldr_nil]

mutual
/-- The text around an inner declarator declares its name with its derivations
of the type. -/
theorem build_declares (hg : d.graph.Closed) : ∀ (t : CType) {h : Handle} {n : Nat}
    {inner name : String} {ds : List Derivation} {stars : Nat},
    t.Denotes d h → t.Legible → h.index < n → Builds (tokens inner.toList) name ds stars →
    (∀ m, d.graph.get? h = some m → Declarator.bindsTighter m = true → stars = 0) →
    ∃ text, d.build n h inner = .ok text ∧
      Declares (tokens text.toList) ⟨name, derived (ds ++ List.replicate stars .pointer) t⟩
  | t, h, 0, inner, name, ds, stars, ht, hl, hn, hi, hs => absurd hn (Nat.not_lt_zero _)
  | .base base, h, n + 1, inner, name, ds, stars, ht, hl, hn, hi, hs => by
    unfold CType.Denotes at ht
    obtain ⟨⟨m, hm, hb⟩, hname⟩ := ht
    exact ⟨_, build_base hm hb hname n inner, hi.declares hl⟩
  | .pointer target, h, n + 1, inner, name, ds, stars, ht, hl, hn, hi, hs => by
    unfold CType.Denotes at ht
    obtain ⟨k, hk, ht⟩ := ht
    have hlt : k.index < h.index := hg.descending _ _ hk k (by simp [Node.parts])
    obtain ⟨m, hm⟩ := Graph.get?_of_lt (hg.inRange _ _ hk k (by simp [Node.children]))
    -- the star is put in front now, and a group closes it off if brackets follow
    obtain ⟨ds', stars', hi', heq, hs'⟩ := hi.pointerTo m
    obtain ⟨text, htext, hd⟩ := build_declares hg target ht hl (show k.index < n by omega) hi'
      fun l hl hb => by
        rw [hm] at hl
        cases hl
        exact hs' hb
    refine ⟨text, (build_pointer hk hm n inner).trans htext, ?_⟩
    rw [heq, List.replicate_succ', ← List.append_assoc, derived_append] at hd
    exact hd
  | .array target dim, h, n + 1, inner, name, ds, stars, ht, hl, hn, hi, hs => by
    unfold CType.Denotes at ht
    obtain ⟨k, hk, ht⟩ := ht
    have hlt : k.index < h.index := hg.descending _ _ hk k (by simp [Node.parts])
    obtain rfl : stars = 0 := hs _ hk rfl
    have hi' : Builds (tokens (inner ++ "[" ++ Declarator.dimText dim ++ "]").toList) name
        (ds ++ [.array dim]) 0 := by
      rw [toList_suffix]
      exact tokens_brackets _ _ ▸ hi.array dim
    obtain ⟨text, htext, hd⟩ := build_declares hg target ht hl (show k.index < n by omega) hi'
      fun _ _ _ => rfl
    refine ⟨text, (build_array hk n inner).trans htext, ?_⟩
    rw [List.replicate_zero, List.append_nil, derived_append] at hd
    rw [List.replicate_zero, List.append_nil]
    exact hd
  | .function returns params variadic, h, n + 1, inner, name, ds, stars, ht, hl, hn, hi, hs => by
    unfold CType.Denotes at ht
    obtain ⟨f, hf, rfl, ht, hp⟩ := ht
    have hlt : ∀ k ∈ f.returns :: f.arguments.map (·.type), k.index < n := fun k hk =>
      Nat.lt_of_lt_of_le (hg.descending _ _ hf k hk) (Nat.le_of_lt_succ hn)
    obtain rfl : stars = 0 := hs _ hf rfl
    obtain ⟨texts, htexts, hds⟩ := buildAll_declares hg params hp hl.2 fun a ha =>
      hlt a.type (List.mem_cons_of_mem _ (List.mem_map_of_mem ha))
    have hi' : Builds
        (tokens (inner ++ "(" ++ Declarator.argumentList texts f.variadic ++ ")").toList) name
        (ds ++ [.function params f.variadic]) 0 := by
      rw [toList_suffix]
      exact tokens_parentheses _ _ ▸ hi.function hds
    obtain ⟨text, htext, hd⟩ := build_declares hg returns ht hl.1
      (hlt f.returns List.mem_cons_self) hi' fun _ _ _ => rfl
    refine ⟨text, (build_function hf n inner htexts).trans htext, ?_⟩
    rw [List.replicate_zero, List.append_nil, derived_append] at hd
    rw [List.replicate_zero, List.append_nil]
    exact hd

theorem buildAll_declares (hg : d.graph.Closed) :
    ∀ (ps : List Param) {args : List Argument} {n : Nat},
    ParamsDenote d ps args → ParamsLegible ps → (∀ a ∈ args, a.type.index < n) →
    ∃ texts, args.mapM (fun a => d.build n a.type (a.name.getD "")) = .ok texts ∧
      List.Forall₂ (fun text p => Declares (tokens text.toList) p) texts ps
  | [], args, n, hp, hl, hn => by
    unfold ParamsDenote at hp
    subst hp
    exact ⟨[], rfl, .nil⟩
  | ⟨name, type⟩ :: ps, args, n, hp, hl, hn => by
    unfold ParamsDenote at hp
    obtain ⟨a, rest, rfl, rfl, ht, hp⟩ := hp
    obtain ⟨hname, hl, hlp⟩ := hl
    obtain ⟨text, htext, hd⟩ := build_declares hg type ht hl (hn a List.mem_cons_self) hname.builds
      fun _ _ _ => rfl
    obtain ⟨texts, htexts, hds⟩ := buildAll_declares hg ps hp hlp fun b hb =>
      hn b (List.mem_cons_of_mem _ hb)
    refine ⟨text :: texts, ?_, .cons hd hds⟩
    rw [List.mapM_cons, htext, htexts]
    rfl
end

theorem Declares.read {text : String} {p : Param} (h : Declares (tokens text.toList) p) :
    readDeclaration text = some p := by
  obtain ⟨r, hrun, hfinish⟩ := h.2 []
  simp only [readDeclaration, Machine.start, hrun, bind, Option.bind, List.isEmpty_nil,
    Bool.not_false, Bool.and_self, if_true, hfinish]

theorem read_declare_denoted (hg : d.graph.Closed) {t : CType} {h : Handle} {name : String}
    (ht : t.Denotes d h) (hl : t.Legible) (hh : h.index < d.graph.size) (hn : Declarable name) :
    ∃ text, d.declare h name = .ok text ∧ readDeclaration text = some ⟨name, t⟩ := by
  obtain ⟨text, htext, hd⟩ := build_declares hg t ht hl (Nat.lt_succ_of_lt hh) hn.builds
    fun _ _ _ => rfl
  exact ⟨text, htext, hd.read⟩

end

/-- The type of a node has names that can be told apart in its text. -/
def Declarator.Legible (d : Declarator) (h : Handle) : Prop :=
  ∀ t : CType, t.Denotes d h → t.Legible

/-- In a closed graph every type is declared, its text gives the name and the
type back, and whatever else has the same text has that name and that type. -/
theorem read_declare (d : Declarator) (hg : d.graph.Closed) (h : Handle) (name : String)
    (hh : h.index < d.graph.size) (hl : d.Legible h) (hn : Declarable name) :
    ∃ text t, d.declare h name = .ok text ∧ readDeclaration text = some ⟨name, t⟩ ∧
      (∀ u : CType, u.Denotes d h ↔ u = t) ∧
      ∀ k other, k.index < d.graph.size → d.Legible k → Declarable other →
        d.declare k other = .ok text → other = name ∧ t.Denotes d k := by
  obtain ⟨t, ht⟩ := exists_denotes hg h hh
  obtain ⟨text, htext, hread⟩ := read_declare_denoted hg ht (hl t ht) hh hn
  refine ⟨text, t, htext, hread, fun u => ⟨fun hu => ht.unique hu, fun hu => hu ▸ ht⟩, ?_⟩
  intro k other hk hlk ho hsame
  obtain ⟨u, hu⟩ := exists_denotes hg k hk
  obtain ⟨text', htext', hread'⟩ := read_declare_denoted hg hu (hlk u hu) hk ho
  -- the reader is a function of the text
  rw [hsame] at htext'
  cases htext'
  rw [hread] at hread'
  cases hread'
  exact ⟨rfl, hu⟩

namespace Sample

/-- `unsigned long *(*visit(int (*rows)[8], ...))()`, node by node. -/
def visitor : List Node :=
  [.fundamental .int, .fundamental .unsignedLong, .array ⟨0⟩ (some 8), .pointer ⟨2⟩, .pointer ⟨1⟩,
    .function ⟨"", ⟨4⟩, [], false, none⟩, .pointer ⟨5⟩,
    .function ⟨"visit", ⟨6⟩, [⟨some "rows", ⟨3⟩⟩], true, none⟩]

def visitors : Declarator := ⟨visitor.foldl Graph.add .empty, .empty⟩

def visit : CType :=
  .function (.pointer (.function (.pointer (.base "unsigned long")) [] false))
    [⟨"rows", .pointer (.array (.base "int") (some 8))⟩] true

end Sample

theorem read_declare_visit :
    ∃ text t, Sample.visitors.declare ⟨7⟩ "visit" = .ok text ∧
      readDeclaration text = some ⟨"visit", t⟩ ∧
      (∀ u : CType, u.Denotes Sample.visitors ⟨7⟩ ↔ u = t) ∧
      ∀ k other, k.index < 8 → Sample.visitors.Legible k → Declarable other →
        Sample.visitors.declare k other = .ok text → other = "visit" ∧
          t.Denotes Sample.visitors k := by
  have hclosed : Sample.visitors.graph.Closed := by
    refine .add (.add (.add (.add (.add (.add (.add (.add .empty ?_ ?_) ?_ ?_) ?_ ?_) ?_ ?_) ?_ ?_)
      ?_ ?_) ?_ ?_) ?_ ?_ <;> decide
  have hvisit : Sample.visit.Denotes Sample.visitors ⟨7⟩ := by
    simp only [Sample.visit, CType.Denotes, ParamsDenote]
    refine ⟨_, rfl, rfl, ⟨_, rfl, _, rfl, rfl, ⟨_, rfl, ⟨_, rfl, rfl⟩, rfl⟩, rfl⟩, ?_⟩
    exact ⟨_, _, rfl, rfl, ⟨_, rfl, _, rfl, ⟨_, rfl, rfl⟩, rfl⟩, rfl⟩
  have hlegible : Sample.visit.Legible := by
    simp only [Sample.visit, CType.Legible, ParamsLegible]
    exact ⟨⟨.inr ⟨["unsigned", "long"], by decide, by decide, rfl⟩, trivial⟩,
      .inr ⟨by decide, by decide⟩, .inl (identifier_of_keyword (by decide)), trivial⟩
  refine read_declare Sample.visitors hclosed ⟨7⟩ "visit" (by decide) (fun t ht => ?_)
    (.inr ⟨by decide, by decide⟩)
  rw [hvisit.unique ht]
  exact hlegible

end CythonDecls.Pxd
