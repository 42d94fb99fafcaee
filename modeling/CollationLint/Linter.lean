import CollationLint.Check.Call
import CollationLint.Check.Comparison
import CollationLint.Report.Diagnostic

namespace CollationLint

structure Linter where
  known : WellKnown
  resolver : Resolver
  severity : Severity

namespace Linter

def name : String := "ImplicitCaseSensitivityAnalyzer"

def ofKnown (known : WellKnown) (resolver : Resolver) : Linter :=
  ⟨known, resolver, Rule.implicitCollation.defaultSeverity⟩

def ofSettings (settings : Settings) (resolver : Resolver) : Except LoadError Linter := do
  let linter := ofKnown (← WellKnown.load settings resolver) resolver
  return { linter with severity := settings.severity.getD linter.severity }

def withSeverity (linter : Linter) (severity : Severity) : Linter := { linter with severity }

def record (linter : Linter) (location : Location) : Except Fault Bool → Option Diagnostic
  | .ok false => none
  | .ok true => some (.violation Rule.implicitCollation linter.severity location)
  | .error e => some (.fault name e.description e.trace location)

def checkComparison (linter : Linter) (f : Forest) (i : Nat) : Option Diagnostic := do
  linter.record (← f.node? i).location (linter.known.flagsComparison f i)

def checkCall (linter : Linter) (f : Forest) (i : Nat) : StateM AncestryMemo (Option Diagnostic) :=
  match f.node? i with
  | none => return none
  | some node => linter.record node.location <$> linter.known.flagsCall linter.resolver f i

def check (linter : Linter) (f : Forest) (i : Nat) : StateM AncestryMemo (Option Diagnostic) :=
  match f.kind? i with
  | some (.binary _) => return linter.checkComparison f i
  | some (.invocation _) => linter.checkCall f i
  | _ => return none

def run (linter : Linter) (f : Forest) : StateM AncestryMemo (List Diagnostic) := do
  let records ← f.ids.mapM (linter.check f)
  return (records.filterMap id).mergeSort fun a b => (compare a.location b.location).isLE

end Linter

end CollationLint
