import CythonDecls.Json.Token

/-!
# Reading JSON

A value is read off its tokens by a machine with a stack of the containers
that are still open. Each token is one step, so the machine takes the tokens
of a value from any stack to that value on the same stack.
-/

namespace CythonDecls.Json

/-- An open container: what was read before the value that comes next, last
first, with that value's key in an object. -/
inductive Frame where
  | items (before : List Json)
  | member (before : List (Option String × Json)) (key : Option String)

/-- What the machine waits for. -/
inductive Reader where
  | value (stack : List Frame)
  | first (stack : List Frame)
  | key (stack : List Frame) (before : List (Option String × Json))
  | colon (stack : List Frame) (before : List (Option String × Json)) (key : Option String)
  | after (stack : List Frame) (value : Json)

def Reader.start : Reader := .value []

/-- A token where a value may begin. -/
def Reader.enter (stack : List Frame) : Token → Option Reader
  | .openArray => some (.first stack)
  | .openObject => some (.key stack [])
  | .null => some (.after stack .null)
  | .bool b => some (.after stack (.bool b))
  | .number lexeme => some (.after stack (.number lexeme))
  | .string text => some (.after stack (.string text))
  | _ => none

def Reader.step : Reader → Token → Option Reader
  | .value stack, t => Reader.enter stack t
  | .first stack, .closeArray => some (.after stack (.array []))
  | .first stack, t => Reader.enter (.items [] :: stack) t
  | .key stack [], .closeObject => some (.after stack (.object []))
  | .key stack before, .string k => some (.colon stack before k)
  | .colon stack before k, .colon => some (.value (.member before k :: stack))
  | .after (.items before :: stack) v, .comma => some (.value (.items (v :: before) :: stack))
  | .after (.items before :: stack) v, .closeArray =>
    some (.after stack (.array (v :: before).reverse))
  | .after (.member before k :: stack) v, .comma => some (.key stack ((k, v) :: before))
  | .after (.member before k :: stack) v, .closeObject =>
    some (.after stack (.object ((k, v) :: before).reverse))
  | _, _ => none

def Reader.run (r : Reader) (ts : List Token) : Option Reader := ts.foldlM Reader.step r

def Reader.finish : Reader → Option Json
  | .after [] v => some v
  | _ => none

def ofTokens? (ts : List Token) : Option Json := Reader.start.run ts >>= Reader.finish

/-- One value with nothing but blanks around it. -/
def read? (s : String) : Option Json := scan s.toList >>= ofTokens?

end CythonDecls.Json
