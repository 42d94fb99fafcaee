import CollationLint.Json.Forms
import CollationLint.Json.Reader
import CollationLint.Loaded.Library

namespace CollationLint

open Json (Value)

structure TypeName where
  assembly : String
  name : String
  deriving DecidableEq

namespace TypeName

def display (t : TypeName) : String := t.name ++ ", " ++ t.assembly

def fieldNames : List String := ["assembly", "name"]

def toJson (t : TypeName) : Value := .record (fieldNames.zip [.text t.assembly, .text t.name])

def ofJson? (v : Value) : Option TypeName := do
  let [some assembly, some name] ← v.fields? false fieldNames | none
  return ⟨← assembly.string?, ← name.string?⟩

end TypeName

structure Settings where
  /-- The assembly of the root class, the string class and the generic sequence interface. -/
  coreLibrary : String
  /-- The assembly of the class with the methods on sequences. -/
  sequenceLibrary : String
  entryPoints : List TypeName
  severity : Option Severity
  deriving DecidableEq

inductive SettingsError where
  | malformed
  | noEntryPoints
  deriving DecidableEq

def SettingsError.message : SettingsError → String
  | .malformed => "invalid analyzer configuration"
  | .noEntryPoints => "at least one provider entry point is required"

namespace Settings

def standard : Settings where
  coreLibrary := Library.coreAssembly
  sequenceLibrary := Library.queryAssembly
  entryPoints := [⟨Library.providerAssembly, Library.queryMethods.fullName⟩]
  severity := none

def fieldNames : List String :=
  ["core_library", "sequence_library", "provider_entry_points", "severity"]

def toJson (s : Settings) : Value :=
  .record (fieldNames.zip [.text s.coreLibrary, .text s.sequenceLibrary,
    .array (s.entryPoints.map (·.toJson)), s.severity.elim .null (·.toJson)])

def entryPointsOfJson? (v : Value) : Option (List TypeName) := do
  (← v.array?).mapM TypeName.ofJson?

def severityOfJson? : Value → Option (Option Severity)
  | .null => some none
  | v => some <$> Severity.ofJson? v

/-- What is left out is as in `standard`. -/
def ofJson? (v : Value) : Option Settings := do
  let [core, sequence, entryPoints, severity] ← v.fields? false fieldNames | none
  return {
    coreLibrary := ← core.elim (some standard.coreLibrary) Value.string?
    sequenceLibrary := ← sequence.elim (some standard.sequenceLibrary) Value.string?
    entryPoints := ← entryPoints.elim (some standard.entryPoints) entryPointsOfJson?
    severity := ← severity.elim (some standard.severity) severityOfJson? }

def parse (text : String) : Except SettingsError Settings :=
  match (Value.parse? text).bind ofJson? with
  | none => .error .malformed
  | some s => if s.entryPoints.isEmpty then .error .noEntryPoints else .ok s

end Settings

end CollationLint
