import CollationLint.Json.Value

namespace CollationLint.Json

namespace Value

def text (s : String) : Value := .string (some s)

def word (n : UInt32) : Value := .natural n.toNat

def record (fields : List (String × Value)) : Value := .object (fields.map fun f => (some f.1, f.2))

def string? : Value → Option String
  | .string text => text
  | _ => none

def word? : Value → Option UInt32
  | .natural n => if n < UInt32.size then some (.ofNat n) else none
  | _ => none

def array? : Value → Option (List Value)
  | .array items => some items
  | _ => none

/-- A bare name, or an object with that name as its only member and null as its value. -/
def variant? : Value → Option String
  | .string text => text
  | .object [(name, .null)] => name
  | _ => none

end Value

/-- The value of the member `name`, if there is one; a repeated member is refused. -/
def member? (members : List (Text × Value)) (name : String) : Option (Option Value) :=
  match members.filter (·.1 = some name) with
  | [] => some none
  | [(_, v)] => some (some v)
  | _ => none

/-- The fields of a record in the order of `names`. A record is written as an object, or as an array
of its fields in order, where the last ones may be left out. Names that are not known are refused
unless the record is `lenient`. -/
def Value.fields? (lenient : Bool) (names : List String) : Value → Option (List (Option Value))
  | .object members =>
    if members.all (fun m => m.1.any fun name => lenient || names.contains name) then
      names.mapM (member? members)
    else none
  | .array items =>
    if items.length ≤ names.length then some (names.mapIdx fun i _ => items[i]?) else none
  | _ => none

end CollationLint.Json
