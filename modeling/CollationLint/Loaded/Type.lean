import CollationLint.Source.TypeRef

namespace CollationLint

structure Parameter where
  assembly : String
  owner : String
  name : String
  position : Nat
  deriving DecidableEq

inductive Role where
  | ordinaryClass
  | rootClass
  | interface
  deriving DecidableEq

structure Declaration (τ : Type) where
  assembly : String
  space : String
  simpleName : String
  role : Role
  parameterNames : List String
  base : Option τ
  interfaces : List τ

namespace Declaration

variable {τ : Type}

def arity (d : Declaration τ) : Nat := d.parameterNames.length

def isGeneric (d : Declaration τ) : Bool := !d.parameterNames.isEmpty

def name (d : Declaration τ) : String :=
  if d.isGeneric then withArity d.simpleName d.arity else d.simpleName

def fullName (d : Declaration τ) : String := qualify d.space d.name

def parameters (d : Declaration τ) : List Parameter :=
  d.parameterNames.mapIdx fun i n => ⟨d.assembly, d.fullName, n, i⟩

def bare (role : Role) (assembly space name : String) : Declaration τ :=
  ⟨assembly, space, name, role, [], none, []⟩

/-- Declares generic parameters. A second group replaces the first, whose arity stays in the name. -/
def withParameters (names : List String) (d : Declaration τ) : Declaration τ :=
  if names.isEmpty then d else { d with simpleName := d.name, parameterNames := names }

def extending (base : τ) (d : Declaration τ) : Declaration τ := { d with base := some base }

def implementing (interface : τ) (d : Declaration τ) : Declaration τ :=
  { d with interfaces := d.interfaces ++ [interface] }

end Declaration

inductive LoadedType where
  | parameter (p : Parameter)
  | defined (d : Declaration LoadedType)
  | constructed (d : Declaration LoadedType) (arguments : List LoadedType)

abbrev Definition := Declaration LoadedType

inductive Form where
  | classLike
  | interface
  | parameter (owner : String) (position : Nat)
  deriving DecidableEq

def Form.isParameter : Form → Bool
  | .parameter _ _ => true
  | _ => false

def Role.form : Role → Form
  | .interface => .interface
  | _ => .classLike

inductive Identity where
  | mk (assembly space name : String) (form : Form) (arguments : List Identity)

namespace Identity

mutual

def decEq : (s t : Identity) → Decidable (s = t)
  | .mk a n m f xs, .mk a' n' m' f' xs' =>
    if h : a = a' ∧ n = n' ∧ m = m' ∧ f = f' then
      match decEqAll xs xs' with
      | isTrue hx => isTrue (by rw [h.1, h.2.1, h.2.2.1, h.2.2.2, hx])
      | isFalse hx => isFalse fun he => hx (Identity.mk.inj he).2.2.2.2
    else isFalse fun he => h (by cases he; exact ⟨rfl, rfl, rfl, rfl⟩)

def decEqAll : (ss ts : List Identity) → Decidable (ss = ts)
  | [], [] => isTrue rfl
  | [], _ :: _ => isFalse nofun
  | _ :: _, [] => isFalse nofun
  | s :: ss, t :: ts =>
    match decEq s t, decEqAll ss ts with
    | isTrue h, isTrue h' => isTrue (by rw [h, h'])
    | isFalse h, _ => isFalse fun he => h (List.cons.inj he).1
    | _, isFalse h => isFalse fun he => h (List.cons.inj he).2

end

instance : DecidableEq Identity := decEq

end Identity

namespace LoadedType

def assembly : LoadedType → String
  | .parameter p => p.assembly
  | .defined d | .constructed d _ => d.assembly

def space : LoadedType → String
  | .parameter _ => ""
  | .defined d | .constructed d _ => d.space

def name : LoadedType → String
  | .parameter p => p.name
  | .defined d | .constructed d _ => d.name

def fullName (t : LoadedType) : String := qualify t.space t.name

def form : LoadedType → Form
  | .parameter p => .parameter p.owner p.position
  | .defined d | .constructed d _ => d.role.form

def parameters : LoadedType → List Parameter
  | .defined d => d.parameters
  | _ => []

def arguments : LoadedType → List LoadedType
  | .constructed _ arguments => arguments
  | _ => []

mutual

def identity : LoadedType → Identity
  | .parameter p => .mk p.assembly "" p.name (.parameter p.owner p.position) []
  | .defined d => .mk d.assembly d.space d.name d.role.form []
  | .constructed d arguments => .mk d.assembly d.space d.name d.role.form (identities arguments)

def identities : List LoadedType → List Identity
  | [] => []
  | t :: ts => t.identity :: identities ts

end

theorem identities_eq_map (ts : List LoadedType) : identities ts = ts.map identity := by
  induction ts with
  | nil => rfl
  | cons t ts ih => rw [identities, ih, List.map_cons]

/-- Sameness of types: a redeclared base or interface does not make another type. -/
instance : BEq LoadedType := ⟨fun s t => s.identity = t.identity⟩

theorem beq_iff {s t : LoadedType} : (s == t) = true ↔ s.identity = t.identity :=
  decide_eq_true_iff

def isParameter : LoadedType → Bool
  | .parameter _ => true
  | _ => false

def isInterface (t : LoadedType) : Bool := t.form = .interface

/-- Binding a root class to arguments gives an ordinary class. -/
def isRoot : LoadedType → Bool
  | .defined d => d.role = .rootClass
  | _ => false

def isGenericDefinition : LoadedType → Bool
  | .defined d => d.isGeneric
  | _ => false

def isConstructed : LoadedType → Bool
  | .constructed .. => true
  | _ => false

def isGeneric (t : LoadedType) : Bool := t.isGenericDefinition || t.isConstructed

mutual

def isOpen : LoadedType → Bool
  | .parameter _ => true
  | .defined d => d.isGeneric
  | .constructed _ arguments => anyOpen arguments

def anyOpen : List LoadedType → Bool
  | [] => false
  | t :: ts => t.isOpen || anyOpen ts

end

def definition? : LoadedType → Option LoadedType
  | .parameter _ => none
  | .defined d => if d.isGeneric then some (.defined d) else none
  | .constructed d _ => some (.defined d)

mutual

def display : LoadedType → String
  | .parameter p => p.name
  | .defined d => d.fullName
  | .constructed d [] => d.fullName
  | .constructed d (a :: as) => d.fullName ++ "[" ++ a.display ++ displayRest as ++ "]"

def displayRest : List LoadedType → String
  | [] => ""
  | a :: as => "," ++ a.display ++ displayRest as

end

end LoadedType

end CollationLint
