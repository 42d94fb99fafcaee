import CollationLint.Operation.Forest
import Mathlib.Data.List.Nodup
import Mathlib.Logic.Relation

namespace CollationLint

open Relation

namespace Arena

def Under (a : Arena) (c p : Nat) : Prop := a.parent? c = some p

def Neighbour (a : Arena) (i j : Nat) : Prop := a.parent? i = some j ∨ ∃ k, a.child? i k = some j

variable {a : Arena}

theorem Linked.lt_of_under (hl : a.Linked) {c p : Nat} (h : a.Under c p) : c < p :=
  hl.descending p c ((hl.parent_iff c p).1 h)

theorem Linked.lt_of_transGen_under (hl : a.Linked) {c p : Nat} (h : TransGen a.Under c p) : c < p := by
  induction h with
  | single h => exact hl.lt_of_under h
  | tail _ h ih => exact Nat.lt_trans ih (hl.lt_of_under h)

theorem Linked.acyclic (hl : a.Linked) (i : Nat) : ¬TransGen a.Under i i :=
  fun h => Nat.lt_irrefl i (hl.lt_of_transGen_under h)

theorem Linked.count_children (hl : a.Linked) {c p : Nat} (h : c ∈ a.children p) :
    (a.children p).count c = 1 :=
  List.count_eq_one_of_mem (hl.nodup p) h

theorem Linked.neighbour_lt_size (hl : a.Linked) {i j : Nat} (h : a.Neighbour i j) : j < a.size := by
  rcases h with hp | ⟨k, hk⟩
  · exact lt_size_of_mem_children ((hl.parent_iff i j).1 hp)
  · have hj := List.mem_of_getElem? hk
    exact Nat.lt_trans (hl.descending i j hj) (lt_size_of_mem_children hj)

theorem Linked.reachable_lt_size (hl : a.Linked) {i j : Nat} (hi : i < a.size)
    (h : ReflTransGen a.Neighbour i j) : j < a.size := by
  induction h with
  | refl => exact hi
  | tail _ h _ => exact hl.neighbour_lt_size h

theorem eq_of_add_error {n : Node} {e : GrowthError} {b : Arena} (h : a.add n = (.error e, b)) :
    b = a := by
  obtain ⟨_, he, -⟩ | ⟨he, -⟩ := a.add_cases n
  · rw [he] at h
    exact (Prod.mk.inj h).2.symm
  · rw [he] at h
    cases (Prod.mk.inj h).1

theorem add_ok_iff {n : Node} {i : Nat} {b : Arena} :
    a.add n = (.ok i, b) ↔
      a.size < capacity ∧ a.Adoptable n.children ∧ i = a.size ∧ b = a.attach n := by
  obtain ⟨e, he, hn⟩ | ⟨he, hs, hn⟩ := a.add_cases n
  · rw [he]
    constructor
    · intro h
      cases (Prod.mk.inj h).1
    · rintro ⟨hs, ha, -⟩
      exact absurd ha (hn hs)
  · rw [he]
    constructor
    · intro h
      obtain ⟨hi, hb⟩ := Prod.mk.inj h
      exact ⟨hs, hn, (Except.ok.inj hi).symm, hb.symm⟩
    · rintro ⟨-, -, rfl, rfl⟩
      rfl

end Arena

namespace Forest

theorem lt_size_of_mem_ancestors {f : Forest} {i j : Nat} (h : j ∈ f.ancestors i) : j < f.size := by
  fun_induction f.ancestors i with
  | case1 i hp => cases h
  | case2 i p hp ih =>
    rcases List.mem_cons.1 h with rfl | h
    · exact (lt_of_parent? hp).2
    · exact ih h

end Forest

theorem Arena.links_agree_after_additions (ns : List Node) :
    let a := (empty.addAll ns).2
    (∀ p c, (a.parent? c = some p ↔ c ∈ a.children p) ∧
      (c ∈ a.children p → (a.children p).count c = 1)) ∧
    ((∀ p, ∀ c ∈ a.children p, c < p) ∧ ∀ i, ¬TransGen a.Under i i) ∧
    ((∀ i j, a.Neighbour i j → j < a.size) ∧
      (∀ i j, i < a.size → ReflTransGen a.Neighbour i j → j < a.size) ∧
      ∀ i, ∀ j ∈ (Forest.empty.addAll ns).2.ancestors i, j < a.size) ∧
    (∀ n e b, a.add n = (.error e, b) → b = a) ∧
    (a.size < capacity → ∀ n, (∃ i b, a.add n = (.ok i, b)) ↔
      (∀ c ∈ n.children, c < a.size ∧ a.parent? c = none) ∧ n.children.Nodup) ∧
    (∀ n i b, a.add n = (.ok i, b) → i = a.size ∧ b.size = a.size + 1 ∧
      ∀ j, b.node? j = if j = a.size then some n else a.node? j) := by
  intro a
  have hl : a.Linked := Linked.empty.addAll ns
  refine ⟨fun p c => ⟨hl.parent_iff c p, hl.count_children⟩, ⟨hl.descending, hl.acyclic⟩,
    ⟨fun i j => hl.neighbour_lt_size, fun i j => hl.reachable_lt_size, ?_⟩,
    fun n e b => eq_of_add_error, ?_, ?_⟩
  · intro i j h
    exact Forest.lt_size_of_mem_ancestors h
  · intro hs n
    constructor
    · rintro ⟨i, b, h⟩
      exact (add_ok_iff.1 h).2.1
    · intro hn
      exact ⟨_, _, add_ok_iff.2 ⟨hs, hn, rfl, rfl⟩⟩
  · intro n i b h
    obtain ⟨-, -, rfl, rfl⟩ := add_ok_iff.1 h
    exact ⟨rfl, a.size_attach n, a.node?_attach n⟩

end CollationLint
