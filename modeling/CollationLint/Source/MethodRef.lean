import CollationLint.Source.TypeRef

namespace CollationLint

structure ParameterRef where
  name : String
  type : TypeRef
  deriving DecidableEq

structure MethodRef where
  owner : TypeRef
  name : String
  isStatic : Bool
  typeArguments : List TypeRef
  parameters : List ParameterRef
  deriving DecidableEq

namespace MethodRef

def isGeneric (m : MethodRef) : Bool := !m.typeArguments.isEmpty

def display (m : MethodRef) : String :=
  let arguments := if m.isGeneric then "<" ++ ", ".intercalate (m.typeArguments.map (·.display)) ++ ">" else ""
  m.owner.display ++ "." ++ m.name ++ arguments
    ++ "(" ++ ", ".intercalate (m.parameters.map (·.type.display)) ++ ")"

end MethodRef

end CollationLint
