import CollationLint.Digits

namespace CollationLint

inductive Piece where
  | char (c : Char)
  | hole (index : Nat)
  deriving DecidableEq

namespace Template

def index? (text : List Char) : Option Nat :=
  let digits := match text with
    | '+' :: rest => rest
    | _ => text
  if digits.isEmpty || !digits.all Char.isDigit then none
  else
    let n := Digits.value digits
    if n < UInt64.size then some n else none

def hole? (arity : Nat) (text : List Char) : Option (Nat × List Char) :=
  match text.dropWhile (· ≠ '}') with
  | [] => none
  | _ :: rest =>
    match index? (text.takeWhile (· ≠ '}')) with
    | some n => if n < arity then some (n, rest) else none
    | none => none

theorem length_of_hole? {arity n : Nat} {text rest : List Char}
    (h : hole? arity text = some (n, rest)) : rest.length < text.length := by
  unfold hole? at h
  split at h
  · cases h
  · rename_i c rest' hd
    have hlen : (text.dropWhile (· ≠ '}')).length ≤ text.length := (List.dropWhile_sublist _).length_le
    rw [hd, List.length_cons] at hlen
    split at h
    · split at h
      · cases h; omega
      · cases h
    · cases h

/-- Cuts a template for `arity` arguments into pieces. A brace that opens no such index is text. -/
def pieces (arity : Nat) : List Char → List Piece
  | [] => []
  | c :: text =>
    if c = '{' then
      match _h : hole? arity text with
      | some (n, rest) => .hole n :: pieces arity rest
      | none => .char c :: pieces arity text
    else .char c :: pieces arity text
termination_by text => text.length
decreasing_by
  · have := length_of_hole? _h
    simp only [List.length_cons]
    omega
  · simp
  · simp

def render (arguments : List String) : Piece → List Char
  | .char c => [c]
  | .hole n => (arguments[n]?.getD "").toList

/-- Puts the arguments in their places. What they contain is never read as a template. -/
def fill (template : String) (arguments : List String) : String :=
  .ofList ((pieces arguments.length template.toList).flatMap (render arguments))

end Template

end CollationLint
