import CythonDecls.FileSystem.Basic
import CythonDecls.Pxd.Generate

/-!
# What a command reports

A command ends in lines for standard output, lines for standard error and a
status. A header that fails does so for a cause, which may have causes of its
own.
-/

namespace CythonDecls

structure Report where
  out : List String
  err : List String
  status : Nat
  deriving DecidableEq, Repr

namespace Report

def failureLine (message : String) : String := s!"error: {message}"

def failure (message : String) : Report := ⟨[], [failureLine message], 1⟩

/-- The report of a command over `total` headers, of which `failed` failed. -/
def ofHeaders (out err : List String) (failed total : Nat) : Report :=
  if failed = 0 then ⟨out, err, 0⟩
  else ⟨out, err ++ [failureLine s!"{failed} of {total} header(s) failed"], 1⟩

end Report

inductive HeaderError where
  | unreadable (source : OsError)
  | invalidTree
  | generate (source : Pxd.GenerateError)
  | unwritable (file : Path) (source : OsError)

namespace HeaderError

/-- The messages of an error of a unit and of the errors behind it. -/
def translateCauses : TranslateError → List String
  | e@(.unknownType ..) => [e.message]
  | e@(.constant _ source) => [e.message, source.message]
  | e@(.graph source) => [e.message, source.message]
  | e@(.malformed _ _ source) => e.message :: translateCauses source

def causes : HeaderError → List String
  | unreadable source => [s!"I/O error: {source.message}", source.message]
  | invalidTree => ["invalid parse tree"]
  | generate (.translate source) => translateCauses source
  | generate (.fault _) => ["declarations without an end"]
  | unwritable file source => [s!"writing {file.text}", source.message]

def message (e : HeaderError) : String := e.causes.headD ""

def chain (e : HeaderError) : String := ": ".intercalate e.causes

end HeaderError

end CythonDecls
