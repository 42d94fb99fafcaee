import CollationLint.Proofs.Links
import CollationLint.Proofs.WellKnown

namespace CollationLint

open Relation

namespace Arena

def Owns (a : Arena) (p c : Nat) : Prop := c ∈ a.children p

/-- The first `n` nodes of the walk up from `next?`. It goes wherever a parent link leads, and nothing
but a node without a parent ends it. -/
def walk (a : Arena) : (n : Nat) → (next? : Option Nat) → List Nat
  | 0, _ => []
  | _ + 1, none => []
  | n + 1, some i => i :: walk a n (a.parent? i)

end Arena

namespace Forest

variable {f : Forest} {i j c p r : Nat}

theorem owns_iff : f.Owns p c ↔ f.parent? c = some p := (f.linked.parent_iff c p).symm

theorem transGen_owns_of_parent? (hp : f.parent? i = some p) :
    TransGen f.Owns j i ↔ j = p ∨ TransGen f.Owns j p := by
  rw [TransGen.tail'_iff]
  constructor
  · rintro ⟨q, hj, hq⟩
    cases (owns_iff.1 hq).symm.trans hp
    exact (reflTransGen_iff_eq_or_transGen.1 hj).imp_left Eq.symm
  · intro h
    exact ⟨p, reflTransGen_iff_eq_or_transGen.2 (h.imp_left Eq.symm), owns_iff.2 hp⟩

theorem not_transGen_owns (hp : f.parent? i = none) : ¬TransGen f.Owns j i := by
  rw [TransGen.tail'_iff]
  rintro ⟨q, -, hq⟩
  cases (owns_iff.1 hq).symm.trans hp

theorem mem_ancestors_iff : j ∈ f.ancestors i ↔ TransGen f.Owns j i := by
  fun_induction f.ancestors i with
  | case1 i hp => simp [not_transGen_owns hp]
  | case2 i p hp ih => rw [List.mem_cons, ih, transGen_owns_of_parent? hp]

theorem walk_eq_take (n : Nat) : f.walk n (f.parent? i) = (f.ancestors i).take n := by
  induction n generalizing i with
  | zero => rw [Arena.walk, List.take_zero]
  | succ n ih =>
    cases hp : f.parent? i with
    | none => rw [ancestors_of_none hp, Arena.walk, List.take_nil]
    | some p => rw [ancestors_of_some hp, Arena.walk, List.take_succ_cons, ih]

theorem isChain_ancestors : (i :: f.ancestors i).IsChain fun c p => f.Owns p c := by
  fun_induction f.ancestors i with
  | case1 i hp => exact .singleton i
  | case2 i p hp ih => exact .cons_cons (owns_iff.2 hp) ih

theorem pairwise_ancestors : (i :: f.ancestors i).Pairwise (· < ·) := by
  have hlt : (i :: f.ancestors i).IsChain (· < ·) :=
    isChain_ancestors.imp fun c p h => f.linked.descending p c h
  exact hlt.pairwise

theorem lt_of_mem_ancestors (h : j ∈ f.ancestors i) : i < j :=
  (List.pairwise_cons.1 pairwise_ancestors).1 j h

theorem eq_ancestors_of_split {xs rest : List Nat} (h : f.ancestors i = xs ++ c :: rest) :
    rest = f.ancestors c := by
  fun_induction f.ancestors i generalizing xs with
  | case1 i hp => simp at h
  | case2 i p hp ih =>
    cases xs with
    | nil =>
      cases h
      rfl
    | cons x xs => exact ih (List.cons.inj h).2

theorem exists_split (h : c ∈ f.ancestors i) : ∃ xs, f.ancestors i = xs ++ c :: f.ancestors c := by
  obtain ⟨xs, rest, hsplit⟩ := List.append_of_mem h
  exact ⟨xs, by rw [hsplit, eq_ancestors_of_split hsplit]⟩

theorem ancestors_eq_nil_iff : f.ancestors i = [] ↔ f.parent? i = none := by
  constructor
  · intro h
    cases hp : f.parent? i with
    | none => rfl
    | some p =>
      rw [ancestors_of_some hp] at h
      cases h
  · exact ancestors_of_none

theorem getLast?_ancestors_eq_some_iff :
    (f.ancestors i).getLast? = some r ↔ f.parent? r = none ∧ r ∈ f.ancestors i := by
  constructor
  · intro h
    obtain ⟨xs, hxs⟩ := List.getLast?_eq_some_iff.1 h
    have hnone : [] = f.ancestors r := eq_ancestors_of_split hxs
    exact ⟨ancestors_eq_nil_iff.1 hnone.symm, List.mem_of_getLast? h⟩
  · rintro ⟨hr, hmem⟩
    obtain ⟨xs, hxs⟩ := exists_split hmem
    rw [hxs, ancestors_of_none hr, List.getLast?_concat]

theorem exists_root (hp : f.parent? i = some p) :
    ∃ root, (f.ancestors i).getLast? = some root ∧
      ∀ r, f.parent? r = none ∧ TransGen f.Owns r i ↔ r = root := by
  have hlast : (f.ancestors i).getLast? = some ((f.ancestors p).getLast?.getD p) := by
    rw [ancestors_of_some hp, List.getLast?_cons]
  refine ⟨_, hlast, fun r => ?_⟩
  rw [← mem_ancestors_iff, ← getLast?_ancestors_eq_some_iff, hlast, Option.some.injEq, eq_comm]

theorem ancestors_meet (h : (f.ancestors i).find? (· ∈ f.ancestors j) = some c) :
    ∃ xs ys, f.ancestors i = xs ++ c :: f.ancestors c ∧ f.ancestors j = ys ++ c :: f.ancestors c ∧
      (∀ x ∈ xs, x ∉ f.ancestors j) ∧ ∀ y ∈ ys, y ∉ f.ancestors i := by
  obtain ⟨hc, xs, rest, hxs, hnew⟩ := List.find?_eq_some_iff_append.1 h
  obtain ⟨ys, hys⟩ := exists_split (of_decide_eq_true hc)
  rw [eq_ancestors_of_split hxs] at hxs
  have hnew' : ∀ x ∈ xs, x ∉ f.ancestors j := by
    intro x hx
    simpa using hnew x hx
  refine ⟨xs, ys, hxs, hys, hnew', ?_⟩
  -- below the meeting point the two lists have nothing in common, and above it ids are larger
  intro y hy hmem
  have hyc : y < c := by
    have hpair := (List.pairwise_cons.1 (pairwise_ancestors (f := f) (i := j))).2
    rw [hys, List.pairwise_append] at hpair
    exact hpair.2.2 y hy c List.mem_cons_self
  rw [hxs, List.mem_append, List.mem_cons] at hmem
  rcases hmem with hx | rfl | hup
  · exact hnew' y hx (by rw [hys]; exact List.mem_append_left _ hy)
  · exact Nat.lt_irrefl y hyc
  · exact Nat.lt_asymm hyc (lt_of_mem_ancestors hup)

theorem ancestors_ascend_to_root (f : Forest) (i : Nat) :
    (∀ n, f.walk n (f.parent? i) = (f.ancestors i).take n) ∧
    (∀ j, j ∈ f.ancestors i ↔ TransGen f.Owns j i) ∧
    (f.ancestors i).Nodup ∧
    (i :: f.ancestors i).IsChain (fun c p => f.Owns p c) ∧
    (i :: f.ancestors i).Pairwise (· < ·) ∧
    (∀ p, f.parent? i = some p → ∃ root, (f.ancestors i).getLast? = some root ∧
      ∀ r, f.parent? r = none ∧ TransGen f.Owns r i ↔ r = root) ∧
    ∀ j c, (f.ancestors i).find? (· ∈ f.ancestors j) = some c →
      ∃ xs ys, f.ancestors i = xs ++ c :: f.ancestors c ∧ f.ancestors j = ys ++ c :: f.ancestors c ∧
        (∀ x ∈ xs, x ∉ f.ancestors j) ∧ ∀ y ∈ ys, y ∉ f.ancestors i := by
  have hlt : (i :: f.ancestors i).Pairwise (· < ·) := pairwise_ancestors
  have hnodup : (f.ancestors i).Nodup := (List.pairwise_cons.1 hlt).2.imp Nat.ne_of_lt
  exact ⟨walk_eq_take, fun j => mem_ancestors_iff, hnodup, isChain_ancestors, hlt, fun p => exists_root,
    fun j c => ancestors_meet⟩

end Forest

namespace Library

def convertedComparison : Forest := query [
  stringLocal "a",
  ⟨.conversion, some (mention string), site, [0]⟩,
  stringLocal "b",
  ⟨.binary .equals, none, site, [1, 2]⟩]

end Library

theorem Forest.operands_meet_at_comparison :
    (∃ xs ys, Library.convertedComparison.ancestors 0 = xs ++ 3 :: Library.convertedComparison.ancestors 3 ∧
      Library.convertedComparison.ancestors 2 = ys ++ 3 :: Library.convertedComparison.ancestors 3) ∧
    ∃ root, (Library.convertedComparison.ancestors 2).getLast? = some root ∧
      Library.convertedComparison.parent? root = none := by
  have hmeet : (Library.convertedComparison.ancestors 0).find?
      (· ∈ Library.convertedComparison.ancestors 2) = some 3 := by decide +kernel
  have hparent : Library.convertedComparison.parent? 2 = some 3 := by decide +kernel
  obtain ⟨-, -, -, -, -, -, hsuffix⟩ := ancestors_ascend_to_root Library.convertedComparison 0
  obtain ⟨-, -, -, -, -, hroot, -⟩ := ancestors_ascend_to_root Library.convertedComparison 2
  obtain ⟨xs, ys, hxs, hys, -⟩ := hsuffix 2 3 hmeet
  obtain ⟨root, hlast, honly⟩ := hroot 3 hparent
  exact ⟨⟨xs, ys, hxs, hys⟩, root, hlast, ((honly root).2 rfl).1⟩

end CollationLint
