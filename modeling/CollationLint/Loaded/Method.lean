import CollationLint.Loaded.Substitution

namespace CollationLint

inductive Genericity where
  | plain
  | unbound (names : List String)
  | bound (names : List String) (arguments : List LoadedType)

structure LoadedMethod where
  owner : LoadedType
  name : String
  isStatic : Bool
  genericity : Genericity
  parameters : List LoadedType

namespace LoadedMethod

def typeParametersOf (owner : LoadedType) (name : String) (names : List String) : List Parameter :=
  names.mapIdx fun i n => ⟨owner.assembly, owner.fullName ++ "." ++ name, n, i⟩

def plain (owner : LoadedType) (name : String) (isStatic : Bool) (parameters : List LoadedType) :
    LoadedMethod :=
  ⟨owner, name, isStatic, .plain, parameters⟩

def generic (owner : LoadedType) (name : String) (isStatic : Bool) (names : List String)
    (parameters : List LoadedType) : LoadedMethod :=
  ⟨owner, name, isStatic, if names.isEmpty then .plain else .unbound names, parameters⟩

def isGeneric (m : LoadedMethod) : Bool :=
  match m.genericity with
  | .plain => false
  | _ => true

def isGenericDefinition (m : LoadedMethod) : Bool :=
  match m.genericity with
  | .unbound _ => true
  | _ => false

def arguments (m : LoadedMethod) : List LoadedType :=
  match m.genericity with
  | .plain => []
  | .unbound names => (typeParametersOf m.owner m.name names).map .parameter
  | .bound _ arguments => arguments

def display (m : LoadedMethod) : String :=
  let arguments := if m.isGeneric then "[" ++ ",".intercalate (m.arguments.map (·.display)) ++ "]" else ""
  m.owner.fullName ++ "." ++ m.name ++ arguments
    ++ "(" ++ ", ".intercalate (m.parameters.map (·.display)) ++ ")"

def bind (m : LoadedMethod) (arguments : List LoadedType) : Except BindingError LoadedMethod :=
  match m.genericity with
  | .unbound names =>
    if names.length ≠ arguments.length then
      .error (.wrongArity m.display names.length arguments.length)
    else
      let σ := (typeParametersOf m.owner m.name names).zip arguments
      .ok { m with genericity := .bound names arguments, parameters := m.parameters.map (·.subst σ) }
  | _ => .error (.notGeneric m.display)

end LoadedMethod

instance : BEq Genericity where
  beq
    | .plain, .plain => true
    | .unbound names, .unbound names' => names == names'
    | .bound names arguments, .bound names' arguments' => names == names' && arguments == arguments'
    | _, _ => false

instance : BEq LoadedMethod where
  beq m m' := m.name == m'.name && m.owner == m'.owner && m.isStatic == m'.isStatic
    && m.genericity == m'.genericity && m.parameters == m'.parameters

end CollationLint
