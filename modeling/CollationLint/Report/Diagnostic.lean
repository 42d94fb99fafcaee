import CollationLint.Report.Rule
import CollationLint.Source.Location

namespace CollationLint

structure Diagnostic where
  ruleId : String
  severity : Severity
  message : String
  location : Location
  arguments : List String
  deriving DecidableEq

namespace Diagnostic

def violation (rule : Rule) (severity : Severity) (location : Location) : Diagnostic :=
  ⟨rule.id, severity, rule.message [], location, []⟩

def fault (linter description trace : String) (location : Location) : Diagnostic :=
  let arguments := [linter, description, trace]
  ⟨Rule.fault.id, Rule.fault.defaultSeverity, Rule.fault.message arguments, location, arguments⟩

def isFault (d : Diagnostic) : Bool := d.ruleId = Rule.fault.id

def display (d : Diagnostic) : String :=
  d.location.display ++ ": " ++ d.severity.text ++ " " ++ d.ruleId ++ ": " ++ d.message

end Diagnostic

end CollationLint
