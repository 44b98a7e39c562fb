import CythonDecls.Proofs.Translation.Walks

/-!
# Types keep their structure

Whatever a translator was fed before, units that failed included, a type that
it resolves can be read back from the graph, and no later unit changes what is
read.
-/

namespace CythonDecls

/-- A resolved type reads back as written, now and after any further units. -/
theorem denotes_of_resolve (before after : List SourceUnit) (site : Site) (ty : TypeExpr)
    {h : Handle} {t : Translator}
    (hr : (Walk.resolve site ty).run (Translator.start.feedAll before) = (.ok h, t)) :
    Denotes (Translator.start.feedAll before).typedefs (t.feedAll after).graph ty h := by
  have s := (Translator.Sound.start.feedAll before).1
  obtain ⟨s₁, _, hq⟩ := Walk.resolve_leads s site ty
  rw [hr] at s₁ hq
  have hd : Denotes (Translator.start.feedAll before).typedefs t.graph ty h := (hq h rfl).2
  -- later units only let the graph grow, and growth keeps what a node denotes
  exact hd.grow (s₁.feedAll after).2.graph

namespace Sample

def count : TypedefDecl := ⟨"count", .identifier ["long", "unsigned"], none⟩

def counts : SourceUnit := ⟨"count.h", [.typedef count]⟩

/-- Fails inside the body of `struct S`. -/
def broken : SourceUnit :=
  ⟨"s.h", [.container .struct (.body (some "S") [.named "x" (.word "missing")])]⟩

/-- Defines `struct S` after all. -/
def mended : SourceUnit :=
  ⟨"s.h", [.container .struct (.body (some "S") [.named "x" (.word "count")])]⟩

/-- `struct S *f(count n[4], int long, ...)` -/
def prototype : TypeExpr :=
  .function ⟨.pointer (.container .struct (.reference "S")),
    [.named "n" (.array (.word "count") (some 4)), .unnamed (.identifier ["int", "long"])], true⟩

end Sample

theorem denotes_of_resolve_prototype :
    ∃ h t, (Walk.resolve ⟨some "f", none, none, .nested⟩ Sample.prototype).run
        (Translator.start.feedAll [Sample.counts, Sample.broken]) = (.ok h, t) ∧
      Denotes (Translator.start.feedAll [Sample.counts, Sample.broken]).typedefs
        (t.feedAll [Sample.mended]).graph Sample.prototype h :=
  ⟨_, _, rfl, denotes_of_resolve [Sample.counts, Sample.broken] [Sample.mended] _ _ rfl⟩

end CythonDecls
