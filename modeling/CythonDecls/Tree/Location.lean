/-!
# Source positions
-/

namespace CythonDecls

structure Location where
  file : String
  line : UInt32
  deriving DecidableEq, Repr, Inhabited

/-- Shown as `file:line`. -/
def Location.text (l : Location) : String := s!"{l.file}:{l.line}"

end CythonDecls
