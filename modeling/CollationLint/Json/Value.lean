namespace CollationLint.Json

/-- The contents of a string, absent if an escape in it stands for no character. -/
abbrev Text := Option String

inductive Value where
  | null
  | bool (b : Bool)
  | natural (n : Nat)
  | number
  | string (text : Text)
  | array (items : List Value)
  /-- The members in the order they were written, repeated names included. -/
  | object (members : List (Text × Value))

end CollationLint.Json
