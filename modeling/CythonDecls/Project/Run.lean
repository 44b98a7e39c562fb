import CythonDecls.Project.Plan
import CythonDecls.Project.Report
import CythonDecls.Tree.Decode

/-!
# Running a plan

Each header of a plan is generated by itself, so one that fails leaves the
others as they are. Of a header that fails no file stays.
-/

namespace CythonDecls

variable {m : Type → Type} [Monad m] [Files m]

def generateFrom (tree : Path) (header : String) (options : Pxd.Options) :
    m (Except HeaderError Pxd.Output) := do
  match ← Files.read tree with
  | .error e => return .error (.unreadable e)
  | .ok text =>
    match SourceUnit.ofText? text with
    | none => return .error .invalidTree
    | some u => return (Pxd.generate u header options).mapError .generate

namespace Plan

def generateHeader (plan : Plan) (h : HeaderEntry) : m (Except HeaderError Pxd.Output) :=
  generateFrom (h.treePath plan.base) h.header (plan.render.optionsFor h.header)

/-! ## Writing -/

def declarationsFile (plan : Plan) (h : HeaderEntry) : Path :=
  plan.outputDir.join (h.outputName ++ ".pxd")

def constantsFile (plan : Plan) (h : HeaderEntry) : Path :=
  plan.outputDir.join (headerStem h.header ++ "_constants.txt")

/-- The files of a header with their texts, in the order they are written. -/
def files (plan : Plan) (h : HeaderEntry) (o : Pxd.Output) : List (Path × String) :=
  (plan.declarationsFile h, o.text)
    :: (if plan.render.emitConstants then [(plan.constantsFile h, o.constantsText)] else [])

end Plan

/-- Writes files in order, after those in `written`. At the first that cannot be
written the ones before it are taken away again. -/
def writeFiles (written : List Path) : List (Path × String) → m (Except HeaderError (List Path))
  | [] => return .ok written
  | (file, text) :: rest => do
    match ← Files.write file text with
    | .ok () => writeFiles (written ++ [file]) rest
    | .error e =>
      written.forM Files.remove
      return .error (.unwritable file e)

namespace Plan

def emit (plan : Plan) (h : HeaderEntry) : m (Except HeaderError (List Path)) := do
  match ← plan.generateHeader h with
  | .error e => return .error e
  | .ok o => writeFiles [] (plan.files h o)

def forHeaders {α : Type} (plan : Plan) (f : HeaderEntry → m α) : m (List (HeaderEntry × α)) :=
  plan.headers.mapM fun h => return (h, ← f h)

end Plan

/-- The files that were written, and the headers that failed. -/
def generateReport (results : List (HeaderEntry × Except HeaderError (List Path))) : Report :=
  let written := results.flatMap fun (_, result) => result.toOption.getD []
  let errors := results.filterMap fun (h, result) =>
    match result with
    | .ok _ => none
    | .error e => some (Report.failureLine s!"{h.header}: {e.chain}")
  .ofHeaders (written.map fun file => s!"Wrote {file.text}") errors errors.length results.length

def Plan.generate (plan : Plan) : m Report := do
  match ← Files.makeDirs plan.outputDir with
  | .error e => return .failure s!"creating {plan.outputDir.text}: {e.message}"
  | .ok () => return generateReport (← plan.forHeaders plan.emit)

/-! ## Checking -/

def checkLine (header : String) : Except HeaderError Pxd.Output → String
  | .ok o =>
    s!"ok    {o.header}: {o.items} items, "
      ++ s!"{o.stats.containersExtracted} nested extracted, {o.lines.length} lines"
  | .error e => s!"FAIL  {header}: {e.message}"

def checkReport (results : List (HeaderEntry × Except HeaderError Pxd.Output)) : Report :=
  .ofHeaders (results.map fun (h, result) => checkLine h.header result) []
    (results.countP fun (_, result) => !result.isOk) results.length

/-- Generates every header of a plan and writes nothing. -/
def Plan.check (plan : Plan) : m Report := do
  return checkReport (← plan.forHeaders plan.generateHeader)

/-! ## Starting -/

/-- Writes the configuration of a new project, named after its directory unless
a name is given. -/
def startProject (dir : Path) (name : Option String) : m Report := do
  let file := dir.join configFile
  if (← Files.kindOf file).isSome then return .failure s!"{file.text} already exists"
  let name := name.getD (dir.fileName?.getD "pxd")
  match ← Files.makeDirs dir with
  | .error e => return .failure s!"creating {dir.text}: {e.message}"
  | .ok () =>
    match ← Files.write file (Config.template name) with
    | .error e => return .failure s!"writing {file.text}: {e.message}"
    | .ok () => return ⟨[s!"Created {file.text} for project '{name}'"], [], 0⟩

end CythonDecls
