/-!
# Code as indented lines

Code is a tree of lines, where some parts stand one level deeper. An empty
line is never indented.
-/

namespace CythonDecls.Pxd

inductive Code where
  | line (text : String)
  | blank
  | indented (parts : List Code)
  | blocks (blocks : List (List String))

def indentation (level : Nat) : String := String.ofList (List.replicate (4 * level) ' ')

def indentLine (level : Nat) (text : String) : String :=
  if text.isEmpty then "" else indentation level ++ text

mutual
def Code.lines (level : Nat) : Code → List String
  | .line text => [indentLine level text]
  | .blank => [""]
  | .indented parts => Code.linesOfAll (level + 1) parts
  | .blocks bs => [""].intercalate (bs.map (·.map (indentLine level)))

def Code.linesOfAll (level : Nat) : List Code → List String
  | [] => []
  | c :: cs => c.lines level ++ Code.linesOfAll level cs
end

/-- The lines of code that starts at the margin. -/
def layout (parts : List Code) : List String := Code.linesOfAll 0 parts

/-- The lines inside a block for the declarations of a header. -/
def wrapExtern (header : String) (lines : List String) : List String :=
  layout [.line ("cdef extern from \"" ++ header ++ "\":"),
    .indented (if lines.isEmpty then [.line "pass"] else lines.map .line)]

/-- Lines as a text, each ended by a newline; no lines make one empty line. -/
def textOfLines (lines : List String) : String := "\n".intercalate lines ++ "\n"

end CythonDecls.Pxd
