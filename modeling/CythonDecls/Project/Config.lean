import CythonDecls.Path
import CythonDecls.Pxd.Generate
import CythonDecls.Toml.Reader
import CythonDecls.Toml.Record

/-!
# The configuration of a project

A project lists headers, each with the parse tree it is generated from.
-/

namespace CythonDecls

/-- How the output of every header is shaped. -/
structure RenderSettings where
  externBlock : Bool
  emitConstants : Bool
  filterToHeader : Bool
  deriving DecidableEq, Repr

def RenderSettings.default : RenderSettings := ⟨true, false, false⟩

def RenderSettings.optionsFor (s : RenderSettings) (header : String) : Pxd.Options :=
  ⟨s.externBlock, ⟨if s.filterToHeader then some header else none⟩⟩

/-- A header by its name in `#include`, with its tree and, if it has one of its
own, the name of its output. -/
structure HeaderEntry where
  tree : String
  header : String
  externName : Option String
  deriving DecidableEq, Repr

/-- The file name without its extension: `inc/point.h` has the stem `point`. -/
def headerStem (header : String) : String := (Path.stem? ⟨header⟩).getD header

def defaultExternName (header : String) : String := "_" ++ headerStem header

def HeaderEntry.outputName (h : HeaderEntry) : String :=
  h.externName.getD (defaultExternName h.header)

/-- The place of a header's tree, below the directory of the project. -/
def HeaderEntry.treePath (h : HeaderEntry) (base : Path) : Path := base.join h.tree

structure Config where
  name : String
  outputDir : String
  render : RenderSettings
  headers : List HeaderEntry
  deriving DecidableEq, Repr

/-! ## Reading -/

def RenderSettings.ofToml? (v : Toml.Value) : Option RenderSettings := do
  let es ← Toml.fields? ["extern_block", "emit_constants", "filter_to_header"] v
  return ⟨← es.defaulted "extern_block" true Toml.boolean?,
    ← es.defaulted "emit_constants" false Toml.boolean?,
    ← es.defaulted "filter_to_header" false Toml.boolean?⟩

def HeaderEntry.ofToml? (v : Toml.Value) : Option HeaderEntry := do
  let es ← Toml.fields? ["tree", "header", "extern_name"] v
  return ⟨← es.required "tree" Toml.string?, ← es.required "header" Toml.string?,
    ← es.defaulted "extern_name" none fun v => (Toml.string? v).map some⟩

def Config.project? (v : Toml.Value) : Option (String × String) := do
  let es ← Toml.fields? ["name", "output_dir"] v
  return (← es.required "name" Toml.string?, ← es.defaulted "output_dir" "." Toml.string?)

def Config.ofEntries? (es : Toml.Entries) : Option Config := do
  let (name, outputDir) ← es.required "project" project?
  return ⟨name, outputDir,
    ← es.defaulted "render" RenderSettings.default RenderSettings.ofToml?,
    ← es.defaulted "headers" [] (Toml.list? HeaderEntry.ofToml?)⟩

def Config.ofText? (s : String) : Option Config := Toml.read? s >>= Config.ofEntries?

/-! ## A new project -/

def configFile : String := "pxdgen.toml"

/-- The configuration that a new project starts with. The name stands in it as
it is. -/
def Config.template (name : String) : String :=
  "\n".intercalate
    ["[project]",
      s!"name = \"{name}\"",
      "output_dir = \"pxd\"",
      "",
      "[render]",
      "extern_block = true",
      "emit_constants = false",
      "filter_to_header = false",
      "",
      "# [[headers]]",
      s!"# tree = \"trees/{name}.json\"",
      s!"# header = \"{name}.h\"",
      ""]

end CythonDecls
