namespace CollationLint

inductive Severity where
  | hidden | info | warning | error
  deriving DecidableEq

namespace Severity

def text : Severity → String
  | .hidden => "hidden"
  | .info => "info"
  | .warning => "warning"
  | .error => "error"

def all : List Severity := [.hidden, .info, .warning, .error]

def ofText? (text : String) : Option Severity := all.find? (·.text = text)

theorem ofText?_text (s : Severity) : ofText? s.text = some s := by cases s <;> decide

def level : Severity → Nat
  | .hidden => 0
  | .info => 1
  | .warning => 2
  | .error => 3

instance : Ord Severity := ⟨fun a b => compare a.level b.level⟩

end Severity

end CollationLint
