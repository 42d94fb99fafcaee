import CollationLint.Source.MethodRef

namespace CollationLint

inductive BinaryOperator where
  | add | subtract | multiply | divide | remainder
  | and | or | exclusiveOr | conditionalAnd | conditionalOr
  | equals | notEquals | lessThan | lessThanOrEqual | greaterThan | greaterThanOrEqual
  deriving DecidableEq

namespace BinaryOperator

def text : BinaryOperator → String
  | .add => "add"
  | .subtract => "subtract"
  | .multiply => "multiply"
  | .divide => "divide"
  | .remainder => "remainder"
  | .and => "and"
  | .or => "or"
  | .exclusiveOr => "exclusive-or"
  | .conditionalAnd => "conditional-and"
  | .conditionalOr => "conditional-or"
  | .equals => "equals"
  | .notEquals => "not-equals"
  | .lessThan => "less-than"
  | .lessThanOrEqual => "less-than-or-equal"
  | .greaterThan => "greater-than"
  | .greaterThanOrEqual => "greater-than-or-equal"

def all : List BinaryOperator :=
  [.add, .subtract, .multiply, .divide, .remainder, .and, .or, .exclusiveOr, .conditionalAnd,
    .conditionalOr, .equals, .notEquals, .lessThan, .lessThanOrEqual, .greaterThan,
    .greaterThanOrEqual]

def ofText? (text : String) : Option BinaryOperator := all.find? (·.text = text)

def testsEquality (o : BinaryOperator) : Bool := o = .equals || o = .notEquals

end BinaryOperator

inductive Constant where
  | null
  | boolean (b : Bool)
  | integer (n : Int)
  /-- The number `mantissa / 10 ^ exponent`. -/
  | decimal (mantissa : Int) (exponent : Nat)
  | character (c : Char)
  | text (s : String)
  deriving DecidableEq

inductive Referent where
  | parameter | localVariable | field | property
  deriving DecidableEq

inductive Kind where
  | binary (operator : BinaryOperator)
  /-- A call. Its children are the receiver, if there is one, and the arguments. -/
  | invocation (target : MethodRef)
  | argument
  | anonymousFunction
  | literal (constant : Option Constant)
  | conversion
  | block
  | returning
  | reference (referent : Referent) (name : String)
  | other (name : String)
  deriving DecidableEq

namespace Kind

def operator? : Kind → Option BinaryOperator
  | .binary operator => some operator
  | _ => none

def target? : Kind → Option MethodRef
  | .invocation target => some target
  | _ => none

/-- A literal whose value is unknown counts as null. -/
def isNullLiteral : Kind → Bool
  | .literal constant => constant.all (· = .null)
  | _ => false

end Kind

end CollationLint
