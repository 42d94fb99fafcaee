import CollationLint.Json.Token

namespace CollationLint.Json

inductive Frame where
  | items (before : List Value)
  | member (before : List (Text × Value)) (name : Text)

inductive State where
  | value (stack : List Frame)
  | firstItem (stack : List Frame)
  | firstName (stack : List Frame)
  | nextName (before : List (Text × Value)) (stack : List Frame)
  | colon (before : List (Text × Value)) (name : Text) (stack : List Frame)
  | ended (v : Value) (stack : List Frame)

namespace State

def start (stack : List Frame) : Token → Option State
  | .null => some (.ended .null stack)
  | .bool b => some (.ended (.bool b) stack)
  | .natural n => some (.ended (.natural n) stack)
  | .number => some (.ended .number stack)
  | .string text => some (.ended (.string text) stack)
  | .openBracket => some (.firstItem stack)
  | .openBrace => some (.firstName stack)
  | _ => none

def step : State → Token → Option State
  | .value stack, t => start stack t
  | .firstItem stack, .closeBracket => some (.ended (.array []) stack)
  | .firstItem stack, t => start (.items [] :: stack) t
  | .firstName stack, .closeBrace => some (.ended (.object []) stack)
  | .firstName stack, .string name => some (.colon [] name stack)
  | .nextName before stack, .string name => some (.colon before name stack)
  | .colon before name stack, .colon => some (.value (.member before name :: stack))
  | .ended v (.items before :: stack), .comma => some (.value (.items (v :: before) :: stack))
  | .ended v (.items before :: stack), .closeBracket => some (.ended (.array (v :: before).reverse) stack)
  | .ended v (.member before name :: stack), .comma => some (.nextName ((name, v) :: before) stack)
  | .ended v (.member before name :: stack), .closeBrace =>
    some (.ended (.object ((name, v) :: before).reverse) stack)
  | _, _ => none

def result? : State → Option Value
  | .ended v [] => some v
  | _ => none

end State

def Value.ofTokens? (tokens : List Token) : Option Value := do
  (← tokens.foldlM State.step (.value [])).result?

def Value.parse? (text : String) : Option Value := do
  Value.ofTokens? (← Token.all text.toList)

end CollationLint.Json
