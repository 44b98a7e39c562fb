import CythonDecls.Path

/-!
# File operations

The commands of the program read and write files through this interface, so
the same definitions run on a real file system and on one that is a value.
-/

namespace CythonDecls

/-- Why an operation on a file failed: a numbered reason of the system, or a
text of its own. -/
inductive OsError where
  | system (code : Nat) (reason : String)
  | other (reason : String)
  deriving DecidableEq, Repr

def OsError.message : OsError → String
  | system code reason => s!"{reason} (os error {code})"
  | other reason => reason

namespace OsError

def notFound : OsError := .system 2 "No such file or directory"

def fileExists : OsError := .system 17 "File exists"

def notDirectory : OsError := .system 20 "Not a directory"

def isDirectory : OsError := .system 21 "Is a directory"

def nameTooLong : OsError := .system 36 "File name too long"

def nulByte : OsError := .other "file name contained an unexpected NUL byte"

/-- A part of the path is not there. -/
def isNotFound : OsError → Bool
  | system code _ => code = 2
  | other _ => false

end OsError

inductive EntryKind where
  | file
  | directory
  deriving DecidableEq, Repr

class Files (m : Type → Type) where
  read : Path → m (Except OsError String)
  /-- Makes or replaces a file. -/
  write : Path → String → m (Except OsError Unit)
  /-- Makes one directory in a directory that is there. -/
  makeDir : Path → m (Except OsError Unit)
  /-- Takes a file away if it is there. -/
  remove : Path → m Unit
  kindOf : Path → m (Option EntryKind)

namespace Files

variable {m : Type → Type} [Monad m] [Files m]

/-- Makes a directory. A failure counts for nothing where one is there. -/
def ensureDir (p : Path) : m (Except OsError Unit) := do
  match ← makeDir p with
  | .ok () => return .ok ()
  | .error e => return if (← kindOf p) = some .directory then .ok () else .error e

/-- Makes a directory, and those above it that are missing, at most `n`. -/
def makeDirsUpTo : Nat → Path → m (Except OsError Unit)
  | 0, p => ensureDir p
  | n + 1, p => do
    match ← ensureDir p with
    | .ok () => return .ok ()
    | .error e =>
      match p.parent? with
      | none => return .error e
      | some above =>
        if e.isNotFound then
          match ← makeDirsUpTo n above with
          | .ok () => ensureDir p
          | .error e => return .error e
        else return .error e

def makeDirs (p : Path) : m (Except OsError Unit) := makeDirsUpTo p.pieces.length p

end Files

end CythonDecls
