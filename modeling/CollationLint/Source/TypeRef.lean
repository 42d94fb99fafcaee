namespace CollationLint

def withArity (name : String) (arity : Nat) : String :=
  name ++ "`" ++ toString arity

def qualify (space name : String) : String :=
  if space = "" then name else space ++ "." ++ name

inductive TypeRef where
  /-- A class, struct, interface or delegate; `name` has no arity suffix. -/
  | named (space name assembly : String) (arguments : List TypeRef)
  | array (element : TypeRef)
  | parameter (name : String)

namespace TypeRef

mutual

def decEq : (s t : TypeRef) → Decidable (s = t)
  | .named n m a xs, .named n' m' a' xs' =>
    if h : n = n' ∧ m = m' ∧ a = a' then
      match decEqAll xs xs' with
      | isTrue hx => isTrue (by rw [h.1, h.2.1, h.2.2, hx])
      | isFalse hx => isFalse fun he => hx (TypeRef.named.inj he).2.2.2
    else isFalse fun he => h ⟨(TypeRef.named.inj he).1, (TypeRef.named.inj he).2.1, (TypeRef.named.inj he).2.2.1⟩
  | .array e, .array e' =>
    match decEq e e' with
    | isTrue h => isTrue (by rw [h])
    | isFalse h => isFalse fun he => h (TypeRef.array.inj he)
  | .parameter n, .parameter n' =>
    if h : n = n' then isTrue (by rw [h]) else isFalse fun he => h (TypeRef.parameter.inj he)
  | .named .., .array _ => isFalse nofun
  | .named .., .parameter _ => isFalse nofun
  | .array _, .named .. => isFalse nofun
  | .array _, .parameter _ => isFalse nofun
  | .parameter _, .named .. => isFalse nofun
  | .parameter _, .array _ => isFalse nofun

def decEqAll : (ss ts : List TypeRef) → Decidable (ss = ts)
  | [], [] => isTrue rfl
  | [], _ :: _ => isFalse nofun
  | _ :: _, [] => isFalse nofun
  | s :: ss, t :: ts =>
    match decEq s t, decEqAll ss ts with
    | isTrue h, isTrue h' => isTrue (by rw [h, h'])
    | isFalse h, _ => isFalse fun he => h (List.cons.inj he).1
    | _, isFalse h => isFalse fun he => h (List.cons.inj he).2

end

instance : DecidableEq TypeRef := decEq

def name : TypeRef → String
  | .named _ name _ _ => name
  | .array element => element.name ++ "[]"
  | .parameter name => name

def space : TypeRef → String
  | .named space _ _ _ => space
  | .array element => element.space
  | .parameter _ => ""

def assembly? : TypeRef → Option String
  | .named _ _ assembly _ => some assembly
  | .array element => element.assembly?
  | .parameter _ => none

def element? : TypeRef → Option TypeRef
  | .array element => some element
  | _ => none

def isNamed : TypeRef → Bool
  | .named .. => true
  | _ => false

def arguments : TypeRef → List TypeRef
  | .named _ _ _ arguments => arguments
  | _ => []

def isGeneric (t : TypeRef) : Bool := !t.arguments.isEmpty

def metadataName (t : TypeRef) : String :=
  let name := qualify t.space t.name
  if t.isGeneric then withArity name t.arguments.length else name

mutual

def display : TypeRef → String
  | .named space name _ [] => qualify space name
  | .named space name _ (a :: as) =>
    qualify space name ++ "<" ++ a.display ++ displayRest as ++ ">"
  | .array element => element.display ++ "[]"
  | .parameter name => name

def displayRest : List TypeRef → String
  | [] => ""
  | a :: as => ", " ++ a.display ++ displayRest as

end

end TypeRef

end CollationLint
