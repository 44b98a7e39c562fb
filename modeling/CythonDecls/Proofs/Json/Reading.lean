import CythonDecls.Json.Reader
import CythonDecls.Proofs.Json.Scanning

/-!
# Reading back what was printed

The reader takes the tokens of a value from any stack to that value on the same
stack, so a sound value that was printed is read back.
-/

namespace CythonDecls.Json

namespace Reader

theorem run_cons (r : Reader) (t : Token) (ts : List Token) :
    r.run (t :: ts) = (r.step t).bind fun r => r.run ts := rfl

/-- No value begins with the mark that closes an array. -/
theorem run_first (v : Json) (stack : List Frame) (ts : List Token) :
    (first stack).run (v.tokens ++ ts) = (value (.items [] :: stack)).run (v.tokens ++ ts) := by
  cases v with
  | array vs => cases vs <;> rw [tokens] <;> rfl
  | object fs => cases fs <;> rw [tokens] <;> rfl
  | _ => rfl

mutual
theorem run_tokens : ∀ (v : Json) (stack : List Frame) (ts : List Token),
    (value stack).run (v.tokens ++ ts) = (after stack v).run ts
  | .null, _, _ => rfl
  | .bool _, _, _ => rfl
  | .number _, _, _ => rfl
  | .string _, _, _ => rfl
  | .array [], _, _ => rfl
  | .array (v :: vs), stack, ts => by
    rw [tokens, List.cons_append, run_cons]
    show (first stack).run _ = _
    rw [List.append_assoc, run_first, run_tokens, List.append_assoc, List.singleton_append,
      run_itemsTokens]
    rfl
  | .object [], _, _ => rfl
  | .object ((k, v) :: fs), stack, ts => by
    rw [tokens, List.cons_append, List.cons_append, List.cons_append]
    show (value (.member [] k :: stack)).run _ = _
    rw [List.append_assoc, run_tokens, List.append_assoc, List.singleton_append, run_fieldsTokens]
    rfl

theorem run_itemsTokens : ∀ (vs : List Json) (v : Json) (before : List Json) (stack : List Frame)
    (ts : List Token),
    (after (.items before :: stack) v).run (itemsTokens vs ++ .closeArray :: ts) =
      (after stack (.array (before.reverse ++ v :: vs))).run ts
  | [], v, before, stack, ts => by
    rw [itemsTokens, List.nil_append, run_cons]
    simp [step]
  | w :: vs, v, before, stack, ts => by
    rw [itemsTokens, List.cons_append, run_cons]
    show (value (.items (v :: before) :: stack)).run _ = _
    rw [List.append_assoc, run_tokens, run_itemsTokens]
    simp

theorem run_fieldsTokens : ∀ (fs : List (Option String × Json)) (k : Option String) (v : Json)
    (before : List (Option String × Json)) (stack : List Frame) (ts : List Token),
    (after (.member before k :: stack) v).run (fieldsTokens fs ++ .closeObject :: ts) =
      (after stack (.object (before.reverse ++ (k, v) :: fs))).run ts
  | [], k, v, before, stack, ts => by
    rw [fieldsTokens, List.nil_append, run_cons]
    simp [step]
  | (l, w) :: fs, k, v, before, stack, ts => by
    rw [fieldsTokens, List.cons_append, List.cons_append, List.cons_append]
    show (value (.member ((k, v) :: before) l :: stack)).run _ = _
    rw [List.append_assoc, run_tokens, run_fieldsTokens]
    simp
end

end Reader

theorem ofTokens?_tokens (v : Json) : ofTokens? v.tokens = some v := by
  have hrun := Reader.run_tokens v [] []
  rw [List.append_nil] at hrun
  rw [ofTokens?, Reader.start, hrun]
  rfl

theorem read?_pretty {v : Json} (hv : v.sound = true) : read? v.pretty = some v := by
  rw [read?, scan_pretty hv]
  exact ofTokens?_tokens v

end CythonDecls.Json
