import CollationLint.Loaded.Method
import CollationLint.Matching.Loading
import CollationLint.Settings

namespace CollationLint

structure WellKnown where
  string : LoadedType
  strings : LoadedType
  entryPoints : List LoadedType
  staticStringEquals : LoadedMethod
  stringEquals : LoadedMethod
  sequenceContains : LoadedMethod
  staticObjectEquals : LoadedMethod

inductive LoadError where
  | missing (type : TypeName) (cause : ResolveError)
  | notBindable (cause : BindingError)
  | noEntryPoints
  | crashed (c : Crash)
  deriving DecidableEq

def LoadError.message : LoadError → String
  | .missing type _ => "cannot resolve '" ++ type.name ++ "' in '" ++ type.assembly ++ "'"
  | .notBindable cause => cause.message
  | .noEntryPoints => "no provider entry points configured"
  | .crashed c => c.message

namespace WellKnown

def find (resolver : Resolver) (type : TypeName) : Except LoadError LoadedType :=
  match resolver type.assembly type.name [] with
  | .found t => .ok t
  | .refused e => .error (.missing type e)
  | .crashed c => .error (.crashed c)

def containsMethod (methods sequence : LoadedType) : Except BindingError LoadedMethod := do
  let element := (LoadedMethod.typeParametersOf methods "Contains" ["TSource"]).map .parameter
  let elements ← sequence.bind element
  return .generic methods "Contains" true ["TSource"] (elements :: element)

def load (settings : Settings) (resolver : Resolver) : Except LoadError WellKnown := do
  let core name := find resolver ⟨settings.coreLibrary, name⟩
  let object ← core "System.Object"
  let string ← core "System.String"
  let sequence ← core "System.Collections.Generic.IEnumerable`1"
  let strings ← (sequence.bind [string]).mapError .notBindable
  let methods ← find resolver ⟨settings.sequenceLibrary, "System.Linq.Enumerable"⟩
  if settings.entryPoints.isEmpty then throw .noEntryPoints
  let entryPoints ← settings.entryPoints.mapM (find resolver)
  let contains ← (containsMethod methods sequence).mapError .notBindable
  return {
    string
    strings
    entryPoints
    staticStringEquals := .plain string "Equals" true [string, string]
    stringEquals := .plain string "Equals" false [string]
    sequenceContains := ← (contains.bind [string]).mapError .notBindable
    staticObjectEquals := .plain object "Equals" true [object, object] }

end WellKnown

end CollationLint
