import CollationLint.Json.Record
import CollationLint.Operation.Kind
import CollationLint.Report.Diagnostic

namespace CollationLint

open Json (Value)

namespace Severity

def toJson (s : Severity) : Value := .text s.text

def ofJson? (v : Value) : Option Severity := do ofText? (← v.variant?)

end Severity

namespace BinaryOperator

def toJson (o : BinaryOperator) : Value := .text o.text

def ofJson? (v : Value) : Option BinaryOperator := do ofText? (← v.variant?)

end BinaryOperator

namespace Location

def fieldNames : List String := ["file", "line", "col", "end_line", "end_col"]

def toJson (l : Location) : Value :=
  .record (fieldNames.zip
    [.text l.file, .word l.line, .word l.column, .word l.endLine, .word l.endColumn])

/-- Members that are not fields of a location are passed over. -/
def ofJson? (v : Value) : Option Location := do
  let [some file, some line, some column, some endLine, some endColumn] ←
    v.fields? true fieldNames | none
  return ⟨← file.string?, ← line.word?, ← column.word?, ← endLine.word?, ← endColumn.word?⟩

end Location

def Rule.toJson (r : Rule) : Value :=
  .record [("id", .text r.id), ("title", .text r.title), ("message_format", .text r.messageTemplate),
    ("category", .text r.category), ("default_severity", r.defaultSeverity.toJson),
    ("enabled_by_default", .bool r.enabledByDefault)]

def Diagnostic.toJson (d : Diagnostic) : Value :=
  let arguments := if d.arguments.isEmpty then [] else [("arguments", .array (d.arguments.map .text))]
  .record ([("rule_id", .text d.ruleId), ("severity", d.severity.toJson), ("message", .text d.message),
    ("location", d.location.toJson)] ++ arguments)

end CollationLint
