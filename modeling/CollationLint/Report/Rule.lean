import CollationLint.Report.Severity
import CollationLint.Report.Template

namespace CollationLint

structure Rule where
  id : String
  title : String
  messageTemplate : String
  category : String
  defaultSeverity : Severity
  enabledByDefault : Bool
  deriving DecidableEq

namespace Rule

def message (r : Rule) (arguments : List String) : String := Template.fill r.messageTemplate arguments

def implicitCollation : Rule where
  id := "INV1000"
  title := "Use of implicit SQL collation behavior in Linq statement."
  messageTemplate := "A string comparison in a linq statement that does not explicitly specify case handling may result in unexpected behavior. However it may be necessary for performance optimization."
  category := "Linq"
  defaultSeverity := .info
  enabledByDefault := true

def fault : Rule where
  id := "INV9999"
  title := "An Error occurred during code analysis."
  messageTemplate := "An error occurred in analyzer \x7b0\x7d: \x7b1\x7d Stack Trace: \x7b2\x7d"
  category := "CodeAnalysis"
  defaultSeverity := .error
  enabledByDefault := true

def supported : List Rule := [implicitCollation, fault]

end Rule

end CollationLint
