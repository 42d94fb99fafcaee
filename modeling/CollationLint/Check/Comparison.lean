import CollationLint.Check.Operand
import CollationLint.Operation.Scope
import CollationLint.WellKnown

namespace CollationLint

/-- Whether the operator at `i` compares strings in a translated lambda. A test for null does not
depend on case. -/
def WellKnown.flagsComparison (known : WellKnown) (f : Forest) (i : Nat) : Except Fault Bool :=
  if (f.operator? i).any (·.testsEquality) then
    match f.child? i 0, f.child? i 1 with
    | some left, some right => do
      if ← either (f.isStringTyped known.string left) (f.isStringTyped known.string right) then
        if ← either (f.isNull left) (f.isNull right) then return false
        else return f.inScope known.entryPoints i
      else return false
    | _, _ => .error (.missingOperand i)
  else .ok false

end CollationLint
