import CythonDecls.Pxd.Constants
import CythonDecls.Pxd.Render
import CythonDecls.Translation.Walk
import CythonDecls.Unnest

/-!
# From a parse tree to a `.pxd` file

A unit is translated, unnested and rendered. A unit by itself gives a graph
without dangling handles and without endless chains; the fault of a graph that
has them is kept apart from the errors of the unit.
-/

namespace CythonDecls.Pxd

structure Options where
  externBlock : Bool
  filter : Filter

def Options.default : Options := ⟨true, ⟨none⟩⟩

structure Output where
  header : String
  lines : List String
  constants : List String
  items : Nat
  stats : UnnestStats

def Output.text (o : Output) : String := textOfLines o.lines

def Output.constantsText (o : Output) : String := textOfLines o.constants

inductive GenerateError where
  | translate (source : TranslateError)
  | fault (source : Fault)

def Output.ofGraph (g : Graph) (header : String) (options : Options) : Except Fault Output := do
  let (g, stats) ← g.unnest
  let lines ← render g options.filter
  return {
    header
    lines := if options.externBlock then wrapExtern header lines else lines
    constants := ← Pxd.constants g
    items := g.module.items.length
    stats }

def generate (u : SourceUnit) (header : String) (options : Options) :
    Except GenerateError Output :=
  match u.translate with
  | .error e => .error (.translate e)
  | .ok g =>
    match Output.ofGraph g header options with
    | .error e => .error (.fault e)
    | .ok o => .ok o

end CythonDecls.Pxd
