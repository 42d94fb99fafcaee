import CollationLint.Check.Operand
import CollationLint.Loaded.Ancestry
import CollationLint.Matching.Methods
import CollationLint.Operation.Scope
import CollationLint.WellKnown

namespace CollationLint

inductive Ruling where
  | clear
  | violation
  /-- A violation if `t` is a sequence of strings. -/
  | membership (t : LoadedType)

def Ruling.ofBool (b : Bool) : Ruling := if b then .violation else .clear

namespace WellKnown

def argumentIsString (known : WellKnown) (f : Forest) (i k : Nat) : Except Fault Bool :=
  match f.argumentValue? i k with
  | none => .error (.missingArgument i k)
  | some value => f.isStringTyped known.string value

/-- What the call at `i` is held to be. A method that takes a comparer or a kind of comparison besides
has more parameters and is none of those looked for. -/
def ruling (known : WellKnown) (resolver : Resolver) (f : Forest) (i : Nat) : Except Fault Ruling :=
  match f.target? i with
  | none => .error (.notCall i)
  | some target =>
    if !f.inScope known.entryPoints i then .ok .clear
    else if target.denotes known.staticStringEquals || target.denotes known.stringEquals
        || target.denotes known.sequenceContains then .ok .violation
    else if target.denotes known.staticObjectEquals then
      Ruling.ofBool <$> either (known.argumentIsString f i 0) (known.argumentIsString f i 1)
    else if target.isStatic then .ok .clear
    else if target.name = "Equals" && target.parameters.length = 1 then
      Ruling.ofBool <$> known.argumentIsString f i 0
    else if target.name = "Contains" && target.parameters.length = 1 then
      match target.owner.load resolver with
      | .error c => .error (.crashed c)
      | .ok none => .ok .clear
      | .ok (some t) => .ok (.membership t)
    else .ok .clear

def settle (known : WellKnown) : Ruling → StateM AncestryMemo Bool
  | .clear => return false
  | .violation => return true
  | .membership t => AncestryMemo.derivesFrom t known.strings

def flagsCall (known : WellKnown) (resolver : Resolver) (f : Forest) (i : Nat) :
    StateM AncestryMemo (Except Fault Bool) :=
  match known.ruling resolver f i with
  | .error e => return .error e
  | .ok ruling => .ok <$> known.settle ruling

end WellKnown

end CollationLint
