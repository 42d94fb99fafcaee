import CollationLint.Directory
import CollationLint.Loaded.Substitution

namespace CollationLint

inductive ResolveError where
  | assemblyNotFound (assembly : String)
  | assemblyNotLoadable (assembly reason : String)
  | typeNotFound (assembly name : String)
  | notBindable (cause : BindingError)
  deriving DecidableEq

def ResolveError.message : ResolveError → String
  | .assemblyNotFound assembly => "could not find assembly '" ++ assembly ++ "'"
  | .assemblyNotLoadable assembly reason => "could not load assembly '" ++ assembly ++ "': " ++ reason
  | .typeNotFound assembly name => "type '" ++ name ++ "' not found in assembly '" ++ assembly ++ "'"
  | .notBindable cause => cause.message

structure Forward where
  type : String
  target : String
  deriving DecidableEq

structure Assembly where
  name : String
  types : Directory LoadedType.fullName
  forwards : Directory Forward.type
  loadFailure : Option String

namespace Assembly

def named (name : String) : Assembly := ⟨name, .empty, .empty, none⟩

def unloadable (name reason : String) : Assembly := { named name with loadFailure := some reason }

def addType (a : Assembly) (t : LoadedType) : Assembly := { a with types := a.types.insert t }

def addForward (a : Assembly) (forward : Forward) : Assembly :=
  { a with forwards := a.forwards.insert forward }

end Assembly

structure Assemblies where
  members : Directory Assembly.name

namespace Assemblies

def empty : Assemblies := ⟨.empty⟩

def find? (as : Assemblies) (name : String) : Option Assembly := as.members.find? name

def register (as : Assemblies) (a : Assembly) : Assemblies := ⟨as.members.insert a⟩

def maxVisits : Nat := 8

/-- Looks for the type `name` from `current` on, visiting at most `visits` assemblies. A type that is
not found is reported as missing from `start`. -/
def follow (as : Assemblies) (start name : String) : Nat → String → Except ResolveError LoadedType
  | 0, _ => .error (.typeNotFound start name)
  | visits + 1, current =>
    match as.find? current with
    | none => .error (.assemblyNotFound current)
    | some a =>
      match a.loadFailure with
      | some reason => .error (.assemblyNotLoadable current reason)
      | none =>
        match a.types.find? name, a.forwards.find? name with
        | some t, _ => .ok t
        | none, some forward => follow as start name visits forward.target
        | none, none => .error (.typeNotFound start name)

def resolve (as : Assemblies) (assembly name : String) (arguments : List LoadedType) :
    Except ResolveError LoadedType := do
  let t ← as.follow assembly name maxVisits assembly
  if arguments.isEmpty then return t
  else (t.bind arguments).mapError .notBindable

def lookup? (as : Assemblies) (assembly name : String) : Option LoadedType :=
  (as.resolve assembly name []).toOption

end Assemblies

end CollationLint
