import CythonDecls.Project.Run

/-!
# The command line

Words are read from left to right and the first that does not fit decides:
nothing behind a request for help or for the version is looked at. An option
takes its value from the next word or from behind an equals sign.
-/

namespace CythonDecls.CommandLine

inductive Command where
  | generate (source : Source) (output : Option String)
  | check (source : Source)
  | init (name : Option String)
  deriving DecidableEq, Repr

inductive Request where
  | run (verbose : Bool) (command : Command)
  | help
  | version
  | misuse
  deriving DecidableEq, Repr

/-! ## Words -/

inductive Word where
  | separator
  | long (name : String) (value : Option String)
  | letters (cs : List Char)
  | plain (text : String)
  deriving DecidableEq, Repr

/-- A long option with the value behind its equals sign. -/
def Word.ofLong (cs : List Char) : Word :=
  let name := String.ofList (cs.takeWhile (· ≠ '='))
  match cs.dropWhile (· ≠ '=') with
  | [] => .long name none
  | _ :: value => .long name (some (String.ofList value))

def Word.ofText (s : String) : Word :=
  match s.toList with
  | ['-', '-'] => .separator
  | '-' :: '-' :: cs => .ofLong cs
  | '-' :: c :: cs => .letters (c :: cs)
  | _ => .plain s

/-! ## Flags -/

inductive Flag where
  | verbose
  | version
  | help
  deriving DecidableEq, Repr

/-- The flags by letter and name; the version is known before the command only. -/
def flags (inCommand : Bool) : List (Char × String × Flag) :=
  [('v', "verbose", .verbose), ('h', "help", .help)]
    ++ (if inCommand then [] else [('V', "version", .version)])

def flagOfLetter? (inCommand : Bool) (c : Char) : Option Flag :=
  ((flags inCommand).find? (·.1 = c)).map (·.2.2)

def flagOfName? (inCommand : Bool) (name : String) : Option Flag :=
  ((flags inCommand).find? (·.2.1 = name)).map (·.2.2)

/-- Raises a flag; `seen` says whether the verbose one is up already. -/
def raise (seen : Bool) : Flag → Except Request Bool
  | .verbose => if seen then .error .misuse else .ok true
  | .version => .error .version
  | .help => .error .help

def raiseLetters (inCommand : Bool) (seen : Bool) (cs : List Char) : Except Request Bool :=
  cs.foldlM (fun seen c =>
    match flagOfLetter? inCommand c with
    | some flag => raise seen flag
    | none => .error .misuse) seen

/-! ## Options of a command -/

inductive Verb where
  | generate
  | check
  | init
  deriving DecidableEq, Repr

def Verb.name : Verb → String
  | generate => "generate"
  | check => "check"
  | init => "init"

def Verb.ofName? (s : String) : Option Verb := [generate, check, init].find? (·.name = s)

/-- The options of a command, each with whether its value may be empty. -/
def Verb.options : Verb → List (String × Bool)
  | generate => [("config", false), ("tree", false), ("header", true), ("output", false)]
  | check => [("config", false), ("tree", false), ("header", true)]
  | init => [("name", true)]

/-- What the words of a command have given so far. -/
structure Given where
  verbose : Bool
  values : List (String × String)

def Given.value? (g : Given) (name : String) : Option String := g.values.lookup name

/-- An option is given once, and with a value that it may have. -/
def Given.add (g : Given) (verb : Verb) (name value : String) : Except Request Given :=
  match verb.options.lookup name with
  | none => .error .misuse
  | some mayBeEmpty =>
    if (g.value? name).isSome ∨ (value.isEmpty ∧ !mayBeEmpty) then .error .misuse
    else .ok { g with values := (name, value) :: g.values }

/-- A tree and a header come together. -/
def Given.source (g : Given) : Except Request Source :=
  match g.value? "tree", g.value? "header" with
  | some tree, some header => .ok ⟨g.value? "config", some (tree, header)⟩
  | none, none => .ok ⟨g.value? "config", none⟩
  | _, _ => .error .misuse

def Given.command (g : Given) : Verb → Except Request Command
  | .generate => do return .generate (← g.source) (g.value? "output")
  | .check => do return .check (← g.source)
  | .init => return .init (g.value? "name")

def readCommand (verb : Verb) (g : Given) : List String → Except Request Given
  | [] => .ok g
  | word :: words =>
    match Word.ofText word with
    | .plain _ => .error .misuse
    | .separator => if words.isEmpty then .ok g else .error .misuse
    | .letters cs => do
      readCommand verb { g with verbose := ← raiseLetters true g.verbose cs } words
    | .long name (some value) => do readCommand verb (← g.add verb name value) words
    | .long name none =>
      match flagOfName? true name with
      | some flag => do readCommand verb { g with verbose := ← raise g.verbose flag } words
      | none =>
        match words with
        | [] => .error .misuse
        | value :: words =>
          match Word.ofText value with
          | .plain value => do readCommand verb (← g.add verb name value) words
          | _ => .error .misuse

/-! ## The whole line -/

/-- A request for help names one command or none. -/
def helpOn : List String → Request
  | [] => .help
  | [name] => if (Verb.ofName? name).isSome ∨ name = "help" then .help else .misuse
  | _ => .misuse

/-- Reads the words up to the command, and those behind it. -/
def readWords (verbose : Bool) : List String → Except Request Request
  | [] => .error .misuse
  | word :: words =>
    match Word.ofText word with
    | .separator => .error .misuse
    | .long _ (some _) => .error .misuse
    | .letters cs => do readWords (← raiseLetters false verbose cs) words
    | .long name none =>
      match flagOfName? false name with
      | some flag => do readWords (← raise verbose flag) words
      | none => .error .misuse
    | .plain name =>
      match Verb.ofName? name with
      | some verb => do
        let given ← readCommand verb ⟨false, []⟩ words
        return .run (verbose || given.verbose) (← given.command verb)
      | none => if name = "help" then .ok (helpOn words) else .error .misuse

def Request.ofWords (words : List String) : Request :=
  match readWords false words with
  | .ok request => request
  | .error request => request

/-! ## Running -/

def versionLine : String := "pxdgen 0.1.0"

def usage : List String :=
  ["Usage: pxdgen [--verbose] <command> [options]",
    "",
    "  generate  write a .pxd file for each header",
    "  check     generate each header and write nothing",
    "  init      write a new pxdgen.toml",
    "",
    "Options of generate and check:",
    "  --config <file>    the configuration, instead of the nearest pxdgen.toml",
    "  --tree <file>      a single parse tree to work on, with --header",
    "  --header <name>    the header of that tree",
    "Option of generate:",
    "  --output <dir>     where the files go",
    "Option of init:",
    "  --name <name>      the name of the project"]

variable {m : Type → Type} [Monad m] [Files m]

/-- Runs `action` on the plan for a source. -/
def withPlan (cwd : Path) (s : Source) (action : Plan → m Report) : m Report := do
  match ← Plan.make cwd s with
  | .error e => return .failure e.message
  | .ok plan => action plan

def Command.run (cwd : Path) : Command → m Report
  | generate s output => withPlan cwd s fun plan =>
    Plan.generate { plan with outputDir := output.elim plan.outputDir cwd.join }
  | check s => withPlan cwd s Plan.check
  | init name => startProject cwd name

/-- Runs the program in a directory. -/
def Request.report (cwd : Path) : Request → m Report
  | run _ command => command.run cwd
  | help => return ⟨usage, [], 0⟩
  | version => return ⟨[versionLine], [], 0⟩
  | misuse => return ⟨[], usage, 2⟩

end CythonDecls.CommandLine
