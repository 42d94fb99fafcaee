import CollationLint.Matching.Types
import CollationLint.Operation.View

namespace CollationLint.Forest

/-- Whether `i` stands in a lambda that a query provider translates: the nearest call around its
nearest enclosing lambda is a call of a method of one of `entryPoints`. -/
def inScope (f : Forest) (entryPoints : List LoadedType) (i : Nat) : Bool :=
  match (f.ancestors i).find? f.isFunction with
  | none => false
  | some function =>
    match (f.ancestors function).findSome? f.target? with
    | none => false
    | some target => entryPoints.any target.owner.denotes

end CollationLint.Forest
