import CollationLint.Matching.Loading
import CollationLint.Operation.Forest
import CollationLint.Report.Trace

namespace CollationLint

inductive Fault where
  | missingOperand (operation : Nat)
  | notCall (operation : Nat)
  | emptyConversion (operation : Nat)
  | missingArgument (operation index : Nat)
  | crashed (c : Crash)
  deriving DecidableEq

namespace Fault

def message : Fault → String
  | .missingOperand i => "binary operator " ++ operationLabel i ++ " is missing an operand"
  | .notCall i => "operation " ++ operationLabel i ++ " is not an invocation"
  | .emptyConversion i => "conversion " ++ operationLabel i ++ " has no operand"
  | .missingArgument i k => "invocation " ++ operationLabel i ++ " has no argument " ++ toString k
  | .crashed c => c.message

def description (e : Fault) : String :=
  match e with
  | .crashed _ => "panic: " ++ e.message
  | _ => e.message

def trace (e : Fault) : String :=
  match e with
  | .crashed c => Trace.join (e.message :: (c.site?.map ("at " ++ ·)).toList)
  | _ => Trace.join [e.message]

end Fault

end CollationLint
