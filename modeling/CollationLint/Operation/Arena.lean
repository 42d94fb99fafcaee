import CollationLint.Operation.Kind
import CollationLint.Source.Location

namespace CollationLint

structure Node where
  kind : Kind
  type? : Option TypeRef
  location : Location
  children : List Nat
  deriving DecidableEq

structure Entry extends Node where
  parent? : Option Nat
  deriving DecidableEq

structure Arena where
  entries : Array Entry
  deriving DecidableEq

inductive GrowthError where
  | unknownChild (child : Nat)
  | alreadyOwned (child parent : Nat)
  | full
  deriving DecidableEq

def operationLabel (id : Nat) : String := "#" ++ toString id

namespace Arena

def empty : Arena := ⟨#[]⟩

def size (a : Arena) : Nat := a.entries.size

def ids (a : Arena) : List Nat := List.range a.size

def node? (a : Arena) (i : Nat) : Option Node := a.entries[i]?.map Entry.toNode

def children (a : Arena) (i : Nat) : List Nat := (a.node? i).elim [] Node.children

def child? (a : Arena) (i k : Nat) : Option Nat := (a.children i)[k]?

def parent? (a : Arena) (i : Nat) : Option Nat := a.entries[i]?.bind Entry.parent?

def refusal? (a : Arena) (taken : List Nat) : List Nat → Option GrowthError
  | [] => none
  | c :: cs =>
    if a.size ≤ c then some (.unknownChild c)
    else match a.parent? c with
      | some p => some (.alreadyOwned c p)
      | none => if c ∈ taken then some (.alreadyOwned c a.size) else refusal? a (c :: taken) cs

def adopt (a : Arena) (parent : Nat) : List Nat → Arena
  | [] => a
  | c :: cs => adopt ⟨a.entries.modify c ({ · with parent? := some parent })⟩ parent cs

def attach (a : Arena) (n : Node) : Arena :=
  ⟨(a.adopt a.size n.children).entries.push { toNode := n, parent? := none }⟩

def capacity : Nat := 4294967295

def add (a : Arena) (n : Node) : Except GrowthError Nat × Arena :=
  if capacity ≤ a.size then (.error .full, a)
  else match a.refusal? [] n.children with
    | some e => (.error e, a)
    | none => (.ok a.size, a.attach n)

def addAll (a : Arena) : List Node → List (Except GrowthError Nat) × Arena
  | [] => ([], a)
  | n :: ns => (((a.add n).2.addAll ns).map ((a.add n).1 :: ·) id)

def Adoptable (a : Arena) (children : List Nat) : Prop :=
  (∀ c ∈ children, c < a.size ∧ a.parent? c = none) ∧ children.Nodup

theorem refusal?_eq_none_iff (a : Arena) (taken cs : List Nat) :
    a.refusal? taken cs = none ↔ a.Adoptable cs ∧ ∀ c ∈ cs, c ∉ taken := by
  induction cs generalizing taken with
  | nil => simp [refusal?, Adoptable]
  | cons c cs ih =>
    rw [refusal?]
    split
    · simp [Adoptable]; omega
    · cases hp : a.parent? c with
      | some p => simp [Adoptable, hp]
      | none =>
        by_cases hc : c ∈ taken
        · simp [hc]
        · simp only [hc, ↓reduceIte, ih, Adoptable, List.mem_cons, List.nodup_cons, forall_eq_or_imp, hp,
            not_or]
          grind

theorem add_cases (a : Arena) (n : Node) :
    (∃ e, a.add n = (.error e, a) ∧ (a.size < capacity → ¬a.Adoptable n.children)) ∨
      (a.add n = (.ok a.size, a.attach n) ∧ a.size < capacity ∧ a.Adoptable n.children) := by
  have hr := a.refusal?_eq_none_iff [] n.children
  rw [add]
  split
  · exact .inl ⟨.full, rfl, fun h => by omega⟩
  · cases he : a.refusal? [] n.children with
    | some e => exact .inl ⟨e, rfl, fun _ ha => by simp [ha, he] at hr⟩
    | none => exact .inr ⟨rfl, by omega, (hr.1 he).1⟩

theorem entries_adopt (a : Arena) (parent i : Nat) (cs : List Nat) :
    (a.adopt parent cs).entries[i]? =
      a.entries[i]?.map fun e => if i ∈ cs then { e with parent? := some parent } else e := by
  induction cs generalizing a with
  | nil => simp [adopt]
  | cons c cs ih =>
    rw [adopt, ih, Array.getElem?_modify]
    by_cases hc : c = i
    · subst c
      cases a.entries[i]? <;> simp
    · simp [hc, Ne.symm hc]

theorem size_adopt (a : Arena) (parent : Nat) (cs : List Nat) : (a.adopt parent cs).size = a.size := by
  induction cs generalizing a with
  | nil => rfl
  | cons c cs ih => rw [adopt, ih, size, size, Array.size_modify]

theorem size_attach (a : Arena) (n : Node) : (a.attach n).size = a.size + 1 := by
  simpa [attach, size] using a.size_adopt a.size n.children

theorem entries_attach (a : Arena) (n : Node) (i : Nat) :
    (a.attach n).entries[i]? = if i = a.size then some { toNode := n, parent? := none }
      else (a.adopt a.size n.children).entries[i]? := by
  have hs : (a.adopt a.size n.children).entries.size = a.size := a.size_adopt _ _
  rw [attach, Array.getElem?_push, hs]

theorem node?_attach (a : Arena) (n : Node) (i : Nat) :
    (a.attach n).node? i = if i = a.size then some n else a.node? i := by
  rw [node?, entries_attach]
  split
  · rfl
  · rw [entries_adopt, Option.map_map, node?]
    congr 1
    funext e
    simp only [Function.comp_apply]
    split <;> rfl

theorem children_attach (a : Arena) (n : Node) (i : Nat) :
    (a.attach n).children i = if i = a.size then n.children else a.children i := by
  rw [children, node?_attach]
  split <;> rfl

theorem parent?_eq_none_of_size_le {a : Arena} {i : Nat} (h : a.size ≤ i) : a.parent? i = none := by
  rw [parent?, Array.getElem?_eq_none h, Option.bind_none]

theorem lt_size_of_mem_children {a : Arena} {i c : Nat} (h : c ∈ a.children i) : i < a.size := by
  apply Nat.lt_of_not_le
  intro hi
  simp [children, node?, Array.getElem?_eq_none hi] at h

theorem parent?_attach {a : Arena} {n : Node} (h : a.Adoptable n.children) (i : Nat) :
    (a.attach n).parent? i = if i ∈ n.children then some a.size else a.parent? i := by
  rw [parent?, entries_attach]
  split
  · have hi : i ∉ n.children := fun hm => by have := (h.1 i hm).1; omega
    rw [if_neg hi, parent?_eq_none_of_size_le (by omega)]
    rfl
  · rw [entries_adopt, parent?]
    split
    · have hi := (h.1 i ‹_›).1
      rw [Array.getElem?_eq_getElem hi]
      rfl
    · simp

/-- The links up and the links down are the same links, and all of them lead down to an older node. -/
structure Linked (a : Arena) : Prop where
  parent_iff : ∀ c p, a.parent? c = some p ↔ c ∈ a.children p
  nodup : ∀ p, (a.children p).Nodup
  descending : ∀ p, ∀ c ∈ a.children p, c < p

theorem Linked.empty : empty.Linked where
  parent_iff c p := by simp [parent?, children, node?, Arena.empty]
  nodup p := by simp [children, node?, Arena.empty]
  descending p c h := by simp [children, node?, Arena.empty] at h

theorem Linked.attach {a : Arena} (hl : a.Linked) {n : Node} (hn : a.Adoptable n.children) :
    (a.attach n).Linked where
  parent_iff c p := by
    rw [parent?_attach hn, children_attach]
    by_cases hc : c ∈ n.children
    · -- a child that was free until now occurs in no older list
      have hfree : c ∉ a.children p := fun h => by
        have := (hl.parent_iff c p).2 h
        simp [(hn.1 c hc).2] at this
      by_cases hp : p = a.size
      · simp [hc, hp]
      · simp [hc, hp, hfree, Ne.symm hp]
    · have hold : a.parent? c ≠ some a.size := fun h =>
        Nat.lt_irrefl _ (lt_size_of_mem_children ((hl.parent_iff c a.size).1 h))
      by_cases hp : p = a.size
      · simp [hc, hp, hold]
      · simp [hc, hp, hl.parent_iff]
  nodup p := by
    rw [children_attach]
    split
    · exact hn.2
    · exact hl.nodup p
  descending p c h := by
    rw [children_attach] at h
    split at h
    · have := (hn.1 c h).1
      omega
    · exact hl.descending p c h

theorem Linked.add {a : Arena} (hl : a.Linked) (n : Node) : (a.add n).2.Linked := by
  obtain ⟨e, he, -⟩ | ⟨he, -, hn⟩ := a.add_cases n
  · rw [he]; exact hl
  · rw [he]; exact hl.attach hn

theorem Linked.addAll {a : Arena} (hl : a.Linked) (ns : List Node) : (a.addAll ns).2.Linked := by
  induction ns generalizing a with
  | nil => exact hl
  | cons n ns ih => exact ih (hl.add n)

end Arena

def GrowthError.message : GrowthError → String
  | .unknownChild child => "operation " ++ operationLabel child ++ " does not belong to this tree"
  | .alreadyOwned child parent =>
    "operation " ++ operationLabel child ++ " already has parent " ++ operationLabel parent
  | .full => "tree cannot hold more than " ++ toString Arena.capacity ++ " operations"

end CollationLint
