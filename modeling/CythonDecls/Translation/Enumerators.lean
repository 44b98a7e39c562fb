import CythonDecls.Translation.State

/-!
# The values of enumerators

An enumerator without an expression is one more than the one before it, and
the first of all is zero. Values are signed 64-bit words and wrap around.
-/

namespace CythonDecls

/-- The value of an enumerator behind one of the value `previous`. -/
def Enumerator.evaluate (e : Enumerator) (previous : Int64) : Except TranslateError Int64 :=
  match e.value with
  | none => .ok (previous + 1)
  | some expr =>
    match Constant.evaluateIntegral expr with
    | .ok n => .ok n
    | .error source => .error (.constant e.name source)

def enumValuesFrom (previous : Int64) : List Enumerator → Except TranslateError (List EnumValue)
  | [] => .ok []
  | e :: es => do
    let value ← e.evaluate previous
    return ⟨e.name, value⟩ :: (← enumValuesFrom value es)

def enumValues (es : List Enumerator) : Except TranslateError (List EnumValue) :=
  enumValuesFrom (-1) es

end CythonDecls
