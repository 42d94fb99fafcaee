import CollationLint.Operation.Forest

namespace CollationLint.Forest

def kind? (f : Forest) (i : Nat) : Option Kind := (f.node? i).map Node.kind

def type? (f : Forest) (i : Nat) : Option TypeRef := (f.node? i).bind Node.type?

def operator? (f : Forest) (i : Nat) : Option BinaryOperator := (f.kind? i).bind Kind.operator?

def target? (f : Forest) (i : Nat) : Option MethodRef := (f.kind? i).bind Kind.target?

def isFunction (f : Forest) (i : Nat) : Bool := f.kind? i = some .anonymousFunction

def isConversion (f : Forest) (i : Nat) : Bool := f.kind? i = some .conversion

def isNullLiteral (f : Forest) (i : Nat) : Bool := (f.kind? i).any Kind.isNullLiteral

def arguments (f : Forest) (i : Nat) : List Nat :=
  (f.children i).filter fun c => f.kind? c = some .argument

def argumentValue? (f : Forest) (i k : Nat) : Option Nat := do
  let argument ← (f.arguments i)[k]?
  f.child? argument 0

variable {f : Forest} {i : Nat}

theorem exists_node_of_kind? {kind : Kind} (h : f.kind? i = some kind) : ∃ n, f.node? i = some n := by
  obtain ⟨n, hn, -⟩ := Option.map_eq_some_iff.1 h
  exact ⟨n, hn⟩

theorem lt_size_of_kind? {kind : Kind} (h : f.kind? i = some kind) : i < f.size := by
  apply Nat.lt_of_not_le
  intro hi
  simp [kind?, Arena.node?, Array.getElem?_eq_none hi] at h

theorem kind?_of_operator? {operator : BinaryOperator} (h : f.operator? i = some operator) :
    f.kind? i = some (.binary operator) := by
  obtain ⟨kind, hk, ho⟩ := Option.bind_eq_some_iff.1 h
  cases kind <;> simp_all [Kind.operator?]

theorem kind?_of_target? {target : MethodRef} (h : f.target? i = some target) :
    f.kind? i = some (.invocation target) := by
  obtain ⟨kind, hk, ht⟩ := Option.bind_eq_some_iff.1 h
  cases kind <;> simp_all [Kind.target?]

theorem lt_of_mem_arguments {a : Nat} (h : a ∈ f.arguments i) : a < i :=
  f.linked.descending i a (List.mem_filter.1 h).1

theorem lt_of_argumentValue? {k v : Nat} (h : f.argumentValue? i k = some v) : v < i := by
  obtain ⟨argument, ha, hv⟩ := Option.bind_eq_some_iff.1 h
  exact Nat.lt_trans (lt_of_child? hv) (lt_of_mem_arguments (List.mem_of_getElem? ha))

end CollationLint.Forest
