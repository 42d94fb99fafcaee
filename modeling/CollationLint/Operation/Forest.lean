import CollationLint.Operation.Arena

namespace CollationLint

/-- An arena whose links agree. A node is added after its children, and no node is the child of two. -/
structure Forest extends Arena where
  linked : toArena.Linked

namespace Forest

def empty : Forest := ⟨.empty, .empty⟩

def addAll (f : Forest) (ns : List Node) : List (Except GrowthError Nat) × Forest :=
  ((f.toArena.addAll ns).1, ⟨(f.toArena.addAll ns).2, f.linked.addAll ns⟩)

theorem lt_of_child? {f : Forest} {i k c : Nat} (h : f.child? i k = some c) : c < i :=
  f.linked.descending i c (List.mem_of_getElem? h)

theorem lt_of_parent? {f : Forest} {i p : Nat} (h : f.parent? i = some p) : i < p ∧ p < f.size :=
  have hc := (f.linked.parent_iff i p).1 h
  ⟨f.linked.descending p i hc, Arena.lt_size_of_mem_children hc⟩

def ancestors (f : Forest) (i : Nat) : List Nat :=
  match _h : f.parent? i with
  | none => []
  | some p => p :: ancestors f p
termination_by f.size - i
decreasing_by
  have := lt_of_parent? _h
  omega

theorem ancestors_of_none {f : Forest} {i : Nat} (h : f.parent? i = none) : f.ancestors i = [] := by
  rw [ancestors]
  split
  · rfl
  · next hp => cases h.symm.trans hp

theorem ancestors_of_some {f : Forest} {i p : Nat} (h : f.parent? i = some p) :
    f.ancestors i = p :: f.ancestors p := by
  rw [ancestors]
  split
  · next hp => cases h.symm.trans hp
  · next q hp =>
    cases h.symm.trans hp
    rfl

end Forest

end CollationLint
