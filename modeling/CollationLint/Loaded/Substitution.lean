import CollationLint.Loaded.Type

namespace CollationLint

inductive BindingError where
  | notGeneric (name : String)
  | wrongArity (name : String) (expected found : Nat)
  deriving DecidableEq

def BindingError.message : BindingError → String
  | .notGeneric name => "'" ++ name ++ "' is not a generic definition"
  | .wrongArity name expected found =>
    "'" ++ name ++ "' expects " ++ toString expected ++ " generic arguments, "
      ++ toString found ++ " supplied"

/-- What each parameter stands for; the first entry of a parameter counts. -/
abbrev Bindings := List (Parameter × LoadedType)

namespace Declaration

def instantiate (d : Definition) (arguments : List LoadedType) : LoadedType :=
  if arguments == d.parameters.map .parameter then .defined d else .constructed d arguments

def bindings (d : Definition) (arguments : List LoadedType) : Bindings :=
  d.parameters.zip arguments

end Declaration

namespace LoadedType

mutual

def subst (σ : Bindings) : LoadedType → LoadedType
  | .parameter p => (σ.lookup p).getD (.parameter p)
  | .defined d => .defined d
  | .constructed d arguments => d.instantiate (substAll σ arguments)

def substAll (σ : Bindings) : List LoadedType → List LoadedType
  | [] => []
  | t :: ts => t.subst σ :: substAll σ ts

end

theorem substAll_eq_map (σ : Bindings) (ts : List LoadedType) : substAll σ ts = ts.map (subst σ) := by
  induction ts with
  | nil => rfl
  | cons t ts ih => rw [substAll, ih, List.map_cons]

def bind (t : LoadedType) (arguments : List LoadedType) : Except BindingError LoadedType :=
  match t with
  | .defined d =>
    if d.parameterNames.isEmpty then .error (.notGeneric d.fullName)
    else if d.arity ≠ arguments.length then
      .error (.wrongArity d.fullName d.arity arguments.length)
    else .ok (d.instantiate arguments)
  | _ => .error (.notGeneric t.fullName)

end LoadedType

end CollationLint
