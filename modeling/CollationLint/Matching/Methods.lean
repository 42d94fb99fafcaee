import CollationLint.Source.MethodRef
import CollationLint.Loaded.Method
import CollationLint.Matching.Types

namespace CollationLint

/-- Whether a call of `r` calls the method `m`. An unbound generic method takes any type arguments,
and a parameter typed by a generic parameter takes any type. -/
def MethodRef.denotes (r : MethodRef) (m : LoadedMethod) : Bool :=
  r.name = m.name
    && r.owner.denotes m.owner
    && r.isStatic = m.isStatic
    && r.isGeneric = m.isGeneric
    && (!m.isGeneric || m.isGenericDefinition
      || Lockstep.agree TypeRef.denotes r.typeArguments m.arguments)
    && Lockstep.agree (fun t p => t.isParameter || p.type.denotes t) m.parameters r.parameters

end CollationLint
