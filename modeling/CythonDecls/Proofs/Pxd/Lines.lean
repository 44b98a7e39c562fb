import CythonDecls.Pxd.Block

/-!
# The lines of blocks

What each kind of block prints. A body stands four columns to the right of its
head, blocks have an empty line between them, and the extern block is a body of
its own.
-/

namespace CythonDecls.Pxd

def deeper (line : String) : String := if line = "" then "" else "    " ++ line

/-- A head by itself, or with a colon in front of its body. -/
def headed (head : String) (body : List String) : List String :=
  if body = [] then [head] else (head ++ ":") :: body.map deeper

def stacked (bs : List Block) : List String := [""].intercalate (bs.map Block.lines)

def page (externBlock : Bool) (header : String) (lines : List String) : List String :=
  if externBlock then
    ("cdef extern from \"" ++ header ++ "\":") ::
      (if lines = [] then ["pass"] else lines).map deeper
  else lines

theorem indentLine_zero (text : String) : indentLine 0 text = text := by
  unfold indentLine
  split
  next h => exact (String.isEmpty_iff.mp h).symm
  next => exact String.empty_append

theorem indentLine_one (text : String) : indentLine 1 text = deeper text := by
  have hspaces : indentation 1 = "    " := by decide
  unfold indentLine deeper
  simp only [String.isEmpty_iff, hspaces]

theorem linesOfAll_line (level : Nat) (texts : List String) :
    Code.linesOfAll level (texts.map .line) = texts.map (indentLine level) := by
  induction texts with
  | nil => rfl
  | cons text texts ih => rw [List.map_cons, Code.linesOfAll, ih, Code.lines]; rfl

theorem layout_line (text : String) : layout [.line text] = [text] := by
  simp [layout, Code.linesOfAll, Code.lines, indentLine_zero]

theorem layout_indented (head : String) (body : List String) :
    layout [.line head, .indented (body.map .line)] = head :: body.map deeper := by
  simp [layout, Code.linesOfAll, Code.lines, linesOfAll_line, indentLine_zero, indentLine_one]

theorem layout_withBody (head : String) (body : List String) :
    layout (Block.withBody head body) = headed head body := by
  unfold Block.withBody headed
  simp only [List.isEmpty_iff]
  split
  · exact layout_line head
  · exact layout_indented (head ++ ":") body

namespace Block

theorem lines_forward (h : Handle) (keyword tag : String) :
    (forward h keyword tag).lines = [s!"cdef {keyword} {tag}"] := layout_line _

theorem lines_container (h : Handle) (head : String) (fields : List (Field × String)) :
    (container h head fields).lines = headed head (fields.map (·.2)) := layout_withBody ..

theorem lines_enumeration (h : Handle) (head : String) (values : List EnumValue) :
    (enumeration h head values).lines = headed head (values.map (·.name)) := layout_withBody ..

theorem lines_synonym (h target : Handle) (declared name : String) :
    (synonym h target declared name).lines = [s!"ctypedef {declared} {name}"] := layout_line _

theorem lines_typedef (h target : Handle) (text : String) :
    (typedef h target text).lines = ["ctypedef " ++ text] := layout_line _

theorem lines_function (h : Handle) (text : String) : (function h text).lines = [text] :=
  layout_line text

theorem lines_object (h type : Handle) (text : String) : (object h type text).lines = [text] :=
  layout_line text

end Block

theorem linesOfBlocks_eq (bs : List Block) : linesOfBlocks bs = stacked bs := by
  have hmargin : indentLine 0 = id := funext indentLine_zero
  simp [linesOfBlocks, stacked, layout, Code.linesOfAll, Code.lines, hmargin, Function.comp_def]

theorem wrapExtern_eq (header : String) (lines : List String) :
    wrapExtern header lines = page true header lines := by
  have hbody : (if lines.isEmpty then [Code.line "pass"] else lines.map .line) =
      (if lines = [] then ["pass"] else lines).map .line := by
    simp only [List.isEmpty_iff]
    split <;> rfl
  unfold wrapExtern page
  rw [hbody, layout_indented]
  rfl

theorem page_eq (externBlock : Bool) (header : String) (lines : List String) :
    (if externBlock then wrapExtern header lines else lines) = page externBlock header lines := by
  cases externBlock with
  | true => exact wrapExtern_eq header lines
  | false => rfl

end CythonDecls.Pxd
