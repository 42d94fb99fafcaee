import CollationLint.Source.TypeRef
import Mathlib.Data.List.Basic

namespace CollationLint

theorem append_cons_inj_of_notMem_tail {α : Type} {c : α} {xs ys ns ms : List α} (hn : c ∉ ns) (hm : c ∉ ms)
    (h : xs ++ c :: ns = ys ++ c :: ms) : xs = ys ∧ ns = ms := by
  -- were one head longer than the other, the tail beside it would hold the separator
  have aligned {as bs cs : List α} (hb : c ∉ bs) (h : c :: bs = as ++ c :: cs) : as = [] := by
    cases as with
    | nil => rfl
    | cons a as =>
      rw [List.cons_append, List.cons.injEq] at h
      exact absurd (by simp [h.2]) hb
  rcases List.append_eq_append_iff.1 h with ⟨as, rfl, htail⟩ | ⟨as, rfl, htail⟩
  · obtain rfl := aligned hn htail
    simpa using htail
  · obtain rfl := aligned hm htail
    simpa [eq_comm] using htail

section Arity

variable {name stem : String} {m n : Nat}

theorem toList_withArity (name : String) (n : Nat) :
    (withArity name n).toList = name.toList ++ '`' :: Nat.toDigits 10 n := by
  simp [withArity, String.toList_append]

theorem notMem_toDigits {c : Char} (hc : c.isDigit = false) (n : Nat) : c ∉ Nat.toDigits 10 n := by
  intro h
  have := Nat.isDigit_of_mem_toDigits (by omega) (by omega) h
  cases hc.symm.trans this

theorem withArity_inj (h : withArity name m = withArity stem n) : name = stem ∧ m = n := by
  have hlist := congrArg String.toList h
  rw [toList_withArity, toList_withArity] at hlist
  obtain ⟨hname, hdigits⟩ := append_cons_inj_of_notMem_tail (notMem_toDigits rfl m) (notMem_toDigits rfl n) hlist
  refine ⟨String.toList_injective hname, ?_⟩
  rw [← Nat.ofDigitChars_ten_toDigits (n := m), hdigits, Nat.ofDigitChars_ten_toDigits]

theorem dot_notMem_withArity (h : '.' ∉ name.toList) (n : Nat) : '.' ∉ (withArity name n).toList := by
  rw [toList_withArity, List.mem_append, List.mem_cons]
  rintro (hd | hd | hd)
  · exact h hd
  · cases hd
  · exact notMem_toDigits rfl n hd

theorem withArity_qualify (space name : String) (n : Nat) :
    withArity (qualify space name) n = qualify space (withArity name n) := by
  unfold qualify
  split
  · rfl
  · simp [withArity, String.append_assoc]

def withoutArity (name : String) : String :=
  .ofList ((name.toList.reverse.dropWhile (· ≠ '`')).drop 1).reverse

theorem withoutArity_withArity (name : String) (n : Nat) : withoutArity (withArity name n) = name := by
  have hdigits : ∀ c ∈ (Nat.toDigits 10 n).reverse, decide (c ≠ '`') = true := by
    intro c hc
    rw [List.mem_reverse] at hc
    apply decide_eq_true
    rintro rfl
    exact notMem_toDigits rfl n hc
  rw [withoutArity, toList_withArity, List.reverse_append, List.reverse_cons, List.append_assoc,
    List.dropWhile_append_of_pos hdigits]
  simp

end Arity

theorem qualify_inj {space space' name name' : String} (hn : '.' ∉ name.toList) (hn' : '.' ∉ name'.toList)
    (h : qualify space name = qualify space' name') : space = space' ∧ name = name' := by
  have toList_of_ne {space : String} (hs : space ≠ "") (name : String) :
      (qualify space name).toList = space.toList ++ '.' :: name.toList := by
    rw [qualify, if_neg hs]
    simp [String.toList_append]
  by_cases hs : space = "" <;> by_cases hs' : space' = ""
  · rw [hs, hs'] at h ⊢
    exact ⟨rfl, h⟩
  · refine absurd ?_ hn
    rw [hs] at h
    rw [show name = qualify space' name' from h, toList_of_ne hs']
    simp
  · refine absurd ?_ hn'
    rw [hs'] at h
    rw [show name' = qualify space name from h.symm, toList_of_ne hs]
    simp
  · have hlist := congrArg String.toList h
    rw [toList_of_ne hs, toList_of_ne hs'] at hlist
    obtain ⟨hspace, hname⟩ := append_cons_inj_of_notMem_tail hn hn' hlist
    exact ⟨String.toList_injective hspace, String.toList_injective hname⟩

end CollationLint
