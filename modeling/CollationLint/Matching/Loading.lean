import CollationLint.Loaded.Assembly

namespace CollationLint

structure Crash where
  /-- Absent if the breakdown left no text. -/
  message? : Option String
  /-- Absent if nothing kept track of where it began. -/
  site? : Option String
  deriving DecidableEq

def Crash.message (c : Crash) : String := c.message?.getD "unknown panic"

inductive Answer where
  | found (t : LoadedType)
  | refused (e : ResolveError)
  | crashed (c : Crash)

abbrev Resolver := String → String → List LoadedType → Answer

def Assemblies.resolver (as : Assemblies) : Resolver := fun assembly name arguments =>
  match as.resolve assembly name arguments with
  | .ok t => .found t
  | .error e => .refused e

namespace TypeRef

mutual

/-- The type a mention means, if the resolver knows it. Arguments are loaded first, and the first
one that is unknown settles the matter. -/
def load (resolver : Resolver) : TypeRef → Except Crash (Option LoadedType)
  | .named space name assembly arguments => do
    let some loaded ← loadAll resolver arguments | return none
    match resolver assembly (named space name assembly arguments).metadataName loaded with
    | .found t => return some t
    | .refused _ => return none
    | .crashed c => throw c
  | .array _ | .parameter _ => return none

def loadAll (resolver : Resolver) : List TypeRef → Except Crash (Option (List LoadedType))
  | [] => return some []
  | r :: rs => do
    let some t ← load resolver r | return none
    let some ts ← loadAll resolver rs | return none
    return some (t :: ts)

end

end TypeRef

end CollationLint
