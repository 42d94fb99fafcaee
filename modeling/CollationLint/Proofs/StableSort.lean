import CollationLint.Report.Diagnostic
import Mathlib.Data.List.Basic
import Mathlib.Order.Compare

namespace CollationLint

variable {α κ : Type} [Ord κ] {key : α → κ}

def noLater (key : α → κ) (a b : α) : Bool := (compare (key a) (key b)).isLE

section Order

variable [Std.TransOrd κ]

theorem noLater_trans (a b c : α) (hab : noLater key a b = true) (hbc : noLater key b c = true) :
    noLater key a c = true :=
  Std.TransCmp.isLE_trans hab hbc

theorem noLater_total (a b : α) : (noLater key a b || noLater key b a) = true := by
  have hswap : compare (key b) (key a) = (compare (key a) (key b)).swap := Std.OrientedCmp.eq_swap
  rw [noLater, noLater, hswap]
  cases compare (key a) (key b) <;> rfl

theorem noLater_of_key_eq {a b : α} (h : key a = key b) : noLater key a b = true := by
  rw [noLater, h, Std.compare_self]
  rfl

theorem key_eq_of_noLater [Std.LawfulEqOrd κ] {a b : α} (hab : noLater key a b = true)
    (hba : noLater key b a = true) : key a = key b :=
  Std.LawfulEqCmp.eq_of_compare (Std.OrientedCmp.isLE_antisymm hab hba)

theorem noLater_head {a b : α} {l : List α}
    (hl : (a :: l).Pairwise fun x y => noLater key x y = true) (hb : b ∈ a :: l) :
    noLater key a b = true := by
  rcases List.mem_cons.1 hb with rfl | hb
  · exact noLater_of_key_eq rfl
  · exact (List.pairwise_cons.1 hl).1 b hb

end Order

variable [DecidableEq κ] {xs ys zs : List α}

/-- `ys` holds what `xs` holds, in the order of the keys, and for each key in the order of `xs`. -/
structure IsStableSort (key : α → κ) (xs ys : List α) : Prop where
  perm : ys.Perm xs
  sorted : ys.Pairwise fun a b => noLater key a b = true
  stable : ∀ k, ys.filter (key · = k) = xs.filter (key · = k)

theorem IsStableSort.filter (h : IsStableSort key xs ys) (p : α → Bool) :
    IsStableSort key (xs.filter p) (ys.filter p) where
  perm := h.perm.filter p
  sorted := h.sorted.filter p
  stable k := by
    have comm (l : List α) : (l.filter p).filter (key · = k) = (l.filter (key · = k)).filter p := by
      rw [List.filter_filter, List.filter_filter]
      simp only [Bool.and_comm]
    rw [comm, comm, h.stable k]

theorem IsStableSort.map {β : Type} (g : α → β) {key : β → κ} (h : IsStableSort (key ∘ g) xs ys) :
    IsStableSort key (xs.map g) (ys.map g) where
  perm := h.perm.map g
  sorted := List.pairwise_map.2 h.sorted
  stable k := by
    rw [List.filter_map, List.filter_map]
    exact congrArg (List.map g) (h.stable k)

theorem isStableSort_mergeSort [Std.TransOrd κ] (key : α → κ) (xs : List α) :
    IsStableSort key xs (xs.mergeSort (noLater key)) where
  perm := List.mergeSort_perm xs _
  sorted := List.pairwise_mergeSort noLater_trans noLater_total xs
  stable k := by
    -- what has one key is in order already, so it stays a sublist, and the lengths leave no room for more
    have hsorted : (xs.filter (key · = k)).Pairwise fun a b => noLater key a b = true := by
      apply List.pairwise_of_forall_mem_list
      intro a ha b hb
      simp only [List.mem_filter, decide_eq_true_eq] at ha hb
      exact noLater_of_key_eq (ha.2.trans hb.2.symm)
    have hsub := List.sublist_mergeSort noLater_trans noLater_total hsorted List.filter_sublist
    have hfilter := hsub.filter (key · = k)
    simp only [List.filter_filter, Bool.and_self] at hfilter
    exact (hfilter.eq_of_length ((List.mergeSort_perm xs _).filter _).length_eq.symm).symm

omit [Ord κ] in
theorem mem_of_filter_sublist (h : ∀ k, (ys.filter (key · = k)).Sublist (zs.filter (key · = k))) {a : α}
    (ha : a ∈ ys) : a ∈ zs := by
  have hf : a ∈ ys.filter (key · = key a) := List.mem_filter.2 ⟨ha, by simp⟩
  exact (List.mem_filter.1 ((h (key a)).subset hf)).1

variable [Std.TransOrd κ] [Std.LawfulEqOrd κ]

theorem sublist_of_sorted (hy : ys.Pairwise fun a b => noLater key a b = true)
    (hz : zs.Pairwise fun a b => noLater key a b = true)
    (h : ∀ k, (ys.filter (key · = k)).Sublist (zs.filter (key · = k))) : ys.Sublist zs := by
  induction zs generalizing ys with
  | nil =>
    cases ys with
    | nil => exact .refl _
    | cons a ys => simpa using h (key a)
  | cons b zs ih =>
    have hzs := (List.pairwise_cons.1 hz).2
    cases ys with
    | nil => exact List.nil_sublist _
    | cons a ys =>
      -- `b` stays out unless it is the first of its key on both sides
      have skip (hb : ((a :: ys).filter (key · = key b)).Sublist (zs.filter (key · = key b))) :
          (a :: ys).Sublist (b :: zs) := by
        refine .cons b (ih hy hzs fun k => ?_)
        by_cases hk : key b = k
        · rw [← hk]
          exact hb
        · simpa [hk] using h k
      by_cases hkey : key a = key b
      · have hfirst : ((a :: ys).filter (key · = key b)).Sublist (b :: zs.filter (key · = key b)) := by
          simpa using h (key b)
        rcases List.sublist_cons_iff.1 hfirst with hb | ⟨rest, heq, hrest⟩
        · exact skip hb
        · rw [List.filter_cons_of_pos (by simpa using hkey)] at heq
          obtain ⟨rfl, rfl⟩ := List.cons.inj heq
          refine .cons_cons a (ih (List.pairwise_cons.1 hy).2 hzs fun k => ?_)
          by_cases hk : key a = k
          · rw [← hk]
            exact hrest
          · simpa [hk] using h k
      · have hba : noLater key b a = true := noLater_head hz (mem_of_filter_sublist h List.mem_cons_self)
        have hnone : (a :: ys).filter (key · = key b) = [] := by
          apply List.filter_eq_nil_iff.2
          intro c hc
          rw [decide_eq_true_eq]
          intro hcb
          have hac : noLater key a c = true := noLater_head hy hc
          exact hkey (key_eq_of_noLater (noLater_trans a c b hac (noLater_of_key_eq hcb)) hba)
        apply skip
        rw [hnone]
        exact List.nil_sublist _

theorem IsStableSort.sublist {xs' : List α} (hy : IsStableSort key xs ys) (hz : IsStableSort key xs' zs)
    (h : xs.Sublist xs') : ys.Sublist zs := by
  apply sublist_of_sorted hy.sorted hz.sorted
  intro k
  rw [hy.stable k, hz.stable k]
  exact h.filter _

theorem IsStableSort.unique (hy : IsStableSort key xs ys) (hz : IsStableSort key xs zs) : ys = zs :=
  (hy.sublist hz (.refl xs)).antisymm (hz.sublist hy (.refl xs))

theorem isStableSort_iff : IsStableSort key xs ys ↔ ys = xs.mergeSort (noLater key) := by
  constructor
  · intro h
    exact h.unique (isStableSort_mergeSort key xs)
  · rintro rfl
    exact isStableSort_mergeSort key xs

instance : Std.TransOrd Location :=
  inferInstanceAs (Std.TransCmp (compareLex (compareLex (compareLex (compareLex
    (compareOn Location.file) (compareOn Location.line)) (compareOn Location.column))
    (compareOn Location.endLine)) (compareOn Location.endColumn)))

instance : Std.LawfulEqOrd Location where
  eq_of_compare {a b} h := by
    have h : Location.compare a b = .eq := h
    simp only [Location.compare, Ordering.then_eq_eq, Std.compare_eq_iff_eq] at h
    obtain ⟨⟨⟨⟨hf, hl⟩, hc⟩, hel⟩, hec⟩ := h
    cases a
    cases b
    simp_all

end CollationLint
