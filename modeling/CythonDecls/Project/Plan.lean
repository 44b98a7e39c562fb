import CythonDecls.FileSystem.Basic
import CythonDecls.Project.Config

/-!
# Plans

A plan says which headers a command works on and where their paths start. It
comes from a configuration, which is named or found in the working directory
or one above it, or from a single tree; then a configuration adds its settings
only.
-/

namespace CythonDecls

structure Plan where
  /-- Trees are below this directory. -/
  base : Path
  outputDir : Path
  render : RenderSettings
  headers : List HeaderEntry
  deriving DecidableEq, Repr

/-- Where a command takes its headers from. -/
structure Source where
  config : Option String
  /-- A tree and the header it is of. -/
  single : Option (String × String)
  deriving DecidableEq, Repr

inductive PlanError where
  | unreadable (config : Path) (source : OsError)
  | invalid (config : Path)
  | noHeaders
  | noConfig
  deriving DecidableEq, Repr

def PlanError.message : PlanError → String
  | unreadable config source => s!"reading {config.text}: {source.message}"
  | invalid config => s!"parsing {config.text}"
  | noHeaders => s!"no [[headers]] configured in {configFile}"
  | noConfig => s!"no {configFile} found (run `pxdgen init`, or pass --tree and --header)"

namespace Plan

/-- The plan for a single tree, which knows of no project directory. -/
def single (cwd : Path) (config : Option Config) (tree header : String) : Plan :=
  ⟨cwd, cwd, config.elim .default (·.render), [⟨tree, header, none⟩]⟩

def ofConfig (c : Config) (dir : Path) : Except PlanError Plan :=
  if c.headers.isEmpty then .error .noHeaders
  else .ok ⟨dir, dir.join c.outputDir, c.render, c.headers⟩

/-- The plan for a source, with the configuration that was loaded and its
directory. -/
def ofSource (cwd : Path) (s : Source) (loaded : Option (Config × Path)) :
    Except PlanError Plan :=
  match s.single, loaded with
  | some (tree, header), _ => .ok (single cwd (loaded.map (·.1)) tree header)
  | none, some (c, dir) => ofConfig c dir
  | none, none => .error .noConfig

end Plan

/-! ## Loading -/

section

variable {m : Type → Type} [Monad m] [Files m]

def Config.load (p : Path) : m (Except PlanError Config) := do
  match ← Files.read p with
  | .error e => return .error (.unreadable p e)
  | .ok text =>
    match Config.ofText? text with
    | some c => return .ok c
    | none => return .error (.invalid p)

/-- The first directory that has a configuration file. -/
def Config.search : List Path → m (Option Path)
  | [] => return none
  | dir :: dirs => do
    if (← Files.kindOf (dir.join configFile)) = some .file then return some dir
    else Config.search dirs

def Source.load (cwd : Path) (s : Source) : m (Except PlanError (Option (Config × Path))) := do
  match s.config with
  | some file =>
    let p := cwd.join file
    return (← Config.load p).map fun c => some (c, p.parent?.getD cwd)
  | none =>
    match ← Config.search cwd.ancestors with
    | none => return .ok none
    | some dir => return (← Config.load (dir.join configFile)).map fun c => some (c, dir)

def Plan.make (cwd : Path) (s : Source) : m (Except PlanError Plan) := do
  return (← s.load cwd) >>= Plan.ofSource cwd s

end

end CythonDecls
