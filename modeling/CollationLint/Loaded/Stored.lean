import CollationLint.Loaded.Substitution

namespace CollationLint

/-- A type as it is kept: each entry stands on its own, and holds what was last written to it. -/
structure StoredType where
  assembly : String
  space : String
  name : String
  form : Form
  isRoot : Bool
  parameters : List StoredType
  arguments : List StoredType
  definition : Option StoredType
  base : Option StoredType
  interfaces : List StoredType

namespace StoredType

def fullName (t : StoredType) : String := qualify t.space t.name

mutual

def identity : StoredType → Identity
  | ⟨assembly, space, name, form, _, _, arguments, _, _, _⟩ =>
    .mk assembly space name form (identities arguments)

def identities : List StoredType → List Identity
  | [] => []
  | t :: ts => t.identity :: identities ts

end

instance : BEq StoredType := ⟨fun s t => s.identity = t.identity⟩

mutual

def isOpen : StoredType → Bool
  | ⟨_, _, _, form, _, parameters, arguments, _, _, _⟩ =>
    form.isParameter || !parameters.isEmpty || anyOpen arguments

def anyOpen : List StoredType → Bool
  | [] => false
  | t :: ts => t.isOpen || anyOpen ts

end

def parameter (p : Parameter) : StoredType :=
  ⟨p.assembly, "", p.name, .parameter p.owner p.position, false, [], [], none, none, []⟩

def blank (role : Role) (assembly space name : String) : StoredType :=
  ⟨assembly, space, name, role.form, role = .rootClass, [], [], none, none, []⟩

/-- The parameters are named after the type as it is called from now on. -/
def withParameters (t : StoredType) (names : List String) : StoredType :=
  if names.isEmpty then t else
    let name := withArity t.name names.length
    let parameters := names.mapIdx fun i n => parameter ⟨t.assembly, qualify t.space name, n, i⟩
    { t with name, parameters }

def extending (t base : StoredType) : StoredType := { t with base := some base }

def implementing (t interface : StoredType) : StoredType :=
  { t with interfaces := t.interfaces ++ [interface] }

def constructed (t : StoredType) (arguments : List StoredType) (base : Option StoredType)
    (interfaces : List StoredType) : StoredType :=
  ⟨t.assembly, t.space, t.name, t.form, false, [], arguments, some t, base, interfaces⟩

mutual

def subst (σ : List (StoredType × StoredType)) : StoredType → Except BindingError StoredType
  | t@⟨_, _, _, _, _, _, arguments, some d, _, _⟩ =>
    match σ.lookup t with
    | some a => .ok a
    | none =>
      if t.isOpen then do
        let bound ← substAll σ arguments
        bind d bound
      else .ok t
  | t => .ok ((σ.lookup t).getD t)

def substAll (σ : List (StoredType × StoredType)) : List StoredType → Except BindingError (List StoredType)
  | [] => .ok []
  | t :: ts => do
    let u ← subst σ t
    let us ← substAll σ ts
    return u :: us

def substOption (σ : List (StoredType × StoredType)) : Option StoredType → Except BindingError (Option StoredType)
  | none => .ok none
  | some t => do
    let u ← subst σ t
    return some u

def bind : StoredType → List StoredType → Except BindingError StoredType
  | t@⟨_, _, _, _, _, parameters, _, _, base, interfaces⟩, arguments =>
    if parameters.isEmpty then .error (.notGeneric t.fullName)
    else if parameters.length ≠ arguments.length then
      .error (.wrongArity t.fullName parameters.length arguments.length)
    else if parameters == arguments then .ok t
    else do
      let base ← substOption (parameters.zip arguments) base
      let interfaces ← substAll (parameters.zip arguments) interfaces
      return t.constructed arguments base interfaces

end

end StoredType

end CollationLint
