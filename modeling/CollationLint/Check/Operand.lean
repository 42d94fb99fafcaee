import CollationLint.Check.Fault
import CollationLint.Matching.Types
import CollationLint.Operation.View

namespace CollationLint

def either (a b : Except Fault Bool) : Except Fault Bool := do
  if ← a then return true else b

namespace Forest

def isDeclared (f : Forest) (string : LoadedType) (i : Nat) : Bool :=
  (f.type? i).any (·.denotes string)

def isStringTyped (f : Forest) (string : LoadedType) (i : Nat) : Except Fault Bool :=
  if f.isDeclared string i then .ok true
  else if f.isConversion i then
    match f.child? i 0 with
    | none => .error (.emptyConversion i)
    | some operand => .ok (f.isDeclared string operand)
  else .ok false

def isNull (f : Forest) (i : Nat) : Except Fault Bool :=
  if f.isNullLiteral i then .ok true
  else if f.isConversion i then
    match _h : f.child? i 0 with
    | none => .error (.emptyConversion i)
    | some operand => isNull f operand
  else .ok false
termination_by i
decreasing_by exact lt_of_child? _h

end Forest

end CollationLint
