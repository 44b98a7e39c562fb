import CythonDecls.CommandLine

/-!
# The program

The operations on the file system of the machine, and the entry point.
-/

namespace CythonDecls

/-- A number of the system, which may have been given as a negative word. -/
def systemNumber (code : UInt32) : Nat := if code < 0x80000000 then code.toNat else (-code).toNat

/-- The reason for a failure, in the words of this program where it has them. -/
def OsError.ofNumber (code : UInt32) (reason : String) : OsError :=
  let found := [notFound, fileExists, notDirectory, isDirectory, nameTooLong].find? fun e =>
    match e with
    | .system n _ => n = systemNumber code
    | .other _ => false
  found.getD (.system (systemNumber code) reason)

def OsError.ofIO : IO.Error → OsError
  | .noFileOrDirectory _ code reason => ofNumber code reason
  | .alreadyExists _ code reason => ofNumber code reason
  | .inappropriateType _ code reason => ofNumber code reason
  | .invalidArgument _ code reason => ofNumber code reason
  | .permissionDenied _ code reason => ofNumber code reason
  | .resourceExhausted _ code reason => ofNumber code reason
  | .otherError code reason => ofNumber code reason
  | .userError reason => .other reason
  | e => .other (toString e)

def attempt {α : Type} (action : IO α) : IO (Except OsError α) := do
  match ← action.toBaseIO with
  | .ok a => return .ok a
  | .error e => return .error (.ofIO e)

/-- What can be opened is a directory if it cannot be read from. -/
def kindOnDisk (p : Path) : IO (Option EntryKind) := do
  match ← attempt (IO.FS.Handle.mk p.text .read) with
  | .error _ => return none
  | .ok handle =>
    return some (if (← attempt (handle.read 1)).isOk then .file else .directory)

instance : Files IO where
  read p := attempt (IO.FS.readFile p.text)
  write p content := attempt (IO.FS.writeFile p.text content)
  makeDir p := attempt (IO.FS.createDir p.text)
  remove p := do discard (attempt (IO.FS.removeFile p.text))
  kindOf := kindOnDisk

end CythonDecls

open CythonDecls CommandLine in
def main (args : List String) : IO UInt32 := do
  let cwd ← IO.currentDir
  let report : Report ← (Request.ofWords args).report ⟨cwd.toString⟩
  report.out.forM fun line => IO.println line
  report.err.forM fun line => IO.eprintln line
  return report.status.toUInt32
