import CollationLint.Check.Operand
import Mathlib.Logic.Relation

namespace CollationLint

open Relation

theorem either_eq_ok_true_iff (a b : Except Fault Bool) :
    either a b = .ok true ↔ a = .ok true ∨ a = .ok false ∧ b = .ok true := by
  rcases a with e | _ | _ <;> simp [either, bind, Except.bind, pure, Except.pure]

theorem either_eq_error_iff (a b : Except Fault Bool) (e : Fault) :
    either a b = .error e ↔ a = .error e ∨ a = .ok false ∧ b = .error e := by
  rcases a with e | _ | _ <;> simp [either, bind, Except.bind, pure, Except.pure]

theorem either_ok (a b : Bool) : either (.ok a) (.ok b) = .ok (a || b) := by
  cases a <;> rfl

theorem ok_false_iff_of_iff {x : Except Fault Bool} {p q : Prop} (ht : x = .ok true ↔ p)
    (he : (∃ e, x = .error e) ↔ q) : x = .ok false ↔ ¬p ∧ ¬q := by
  rcases x with e | _ | _ <;> simp_all

namespace Forest

def Converts (f : Forest) (i j : Nat) : Prop := f.isConversion i = true ∧ f.child? i 0 = some j

def IsHollow (f : Forest) (i : Nat) : Prop := f.isConversion i = true ∧ f.child? i 0 = none

/-- Some number of conversions below `i`, possibly none, there is a node with the property `P`. -/
def Reaches (f : Forest) (P : Nat → Prop) (i : Nat) : Prop := ∃ j, ReflTransGen f.Converts i j ∧ P j

def ReachesNull (f : Forest) (i : Nat) : Prop := f.Reaches (fun j => f.isNullLiteral j = true) i

def IsString (f : Forest) (string : LoadedType) (i : Nat) : Prop :=
  f.isDeclared string i = true ∨ ∃ j, f.Converts i j ∧ f.isDeclared string j = true

def Filled (f : Forest) : Prop := ∀ i, f.isConversion i = true → ∃ j, f.child? i 0 = some j

variable {f : Forest}

theorem Filled.not_isHollow (hf : f.Filled) (i : Nat) : ¬f.IsHollow i := by
  rintro ⟨hc, hn⟩
  obtain ⟨j, hj⟩ := hf i hc
  cases hn.symm.trans hj

instance : Decidable f.Filled :=
  decidable_of_iff (∀ i < f.size, f.isConversion i = true → (f.child? i 0).isSome = true) <| by
    constructor
    · intro h i hc
      exact Option.isSome_iff_exists.1 (h i (lt_size_of_kind? (of_decide_eq_true hc)) hc)
    · intro h i _ hc
      exact Option.isSome_iff_exists.2 (h i hc)

theorem isConversion_eq_false_of_isNullLiteral {i : Nat} (h : f.isNullLiteral i = true) :
    f.isConversion i = false := by
  simp only [isNullLiteral, Option.any_eq_true] at h
  obtain ⟨k, hk, hl⟩ := h
  cases k <;> simp_all [isConversion, Kind.isNullLiteral]

theorem reaches_iff (P : Nat → Prop) (i : Nat) :
    f.Reaches P i ↔ P i ∨ ∃ j, f.Converts i j ∧ f.Reaches P j := by
  constructor
  · rintro ⟨k, hk, hP⟩
    rcases ReflTransGen.cases_head hk with rfl | ⟨j, hj, hk⟩
    · exact .inl hP
    · exact .inr ⟨j, hj, k, hk, hP⟩
  · rintro (hP | ⟨j, hj, k, hk, hP⟩)
    · exact ⟨i, .refl, hP⟩
    · exact ⟨k, .head hj hk, hP⟩

theorem reaches_of_converts {P : Nat → Prop} {i j : Nat} (h : f.Converts i j) (hi : ¬P i) :
    f.Reaches P i ↔ f.Reaches P j := by
  rw [reaches_iff]
  constructor
  · rintro (hP | ⟨k, hk, hP⟩)
    · exact absurd hP hi
    · cases h.2.symm.trans hk.2
      exact hP
  · intro hP
    exact .inr ⟨j, h, hP⟩

theorem reaches_of_not_converts {P : Nat → Prop} {i : Nat} (h : ∀ j, ¬f.Converts i j) :
    f.Reaches P i ↔ P i := by
  rw [reaches_iff]
  constructor
  · rintro (hP | ⟨j, hj, -⟩)
    · exact hP
    · exact absurd hj (h j)
  · exact .inl

theorem Filled.not_reaches_isHollow (hf : f.Filled) (i : Nat) : ¬f.Reaches f.IsHollow i := by
  rintro ⟨j, -, hj⟩
  exact hf.not_isHollow j hj

section Typing

variable (string : LoadedType) (i : Nat)

theorem isStringTyped_eq_ok_true_iff : f.isStringTyped string i = .ok true ↔ f.IsString string i := by
  unfold isStringTyped IsString Converts
  by_cases hd : f.isDeclared string i = true
  · simp [hd]
  · by_cases hc : f.isConversion i = true
    · cases hj : f.child? i 0 <;> simp [hd, hc]
    · simp [hd, hc]

theorem isStringTyped_eq_error_iff (e : Fault) :
    f.isStringTyped string i = .error e ↔
      f.isDeclared string i = false ∧ f.IsHollow i ∧ e = .emptyConversion i := by
  unfold isStringTyped IsHollow
  by_cases hd : f.isDeclared string i = true
  · simp [hd]
  · by_cases hc : f.isConversion i = true
    · cases hj : f.child? i 0 <;> simp [hd, hc, eq_comm]
    · simp [hd, hc]

theorem Filled.isStringTyped (hf : f.Filled) :
    ∃ b, f.isStringTyped string i = .ok b ∧ (b = true ↔ f.IsString string i) := by
  cases h : f.isStringTyped string i with
  | error e => exact absurd ((isStringTyped_eq_error_iff string i e).1 h).2.1 (hf.not_isHollow i)
  | ok b => exact ⟨b, rfl, by rw [← isStringTyped_eq_ok_true_iff, h, Except.ok.injEq]⟩

end Typing

theorem isNull_of_converts {i j : Nat} (h : f.Converts i j) : f.isNull i = f.isNull j := by
  have hn : ¬f.isNullLiteral i = true := fun hn =>
    Bool.false_ne_true ((isConversion_eq_false_of_isNullLiteral hn).symm.trans h.1)
  rw [isNull, if_neg hn, if_pos h.1]
  split
  · next hj => cases hj.symm.trans h.2
  · next k hj =>
    cases hj.symm.trans h.2
    rfl

theorem isNull_of_not_converts {i : Nat} (h : ∀ j, ¬f.Converts i j) :
    f.isNull i = if f.isNullLiteral i then .ok true
      else if f.isConversion i then .error (.emptyConversion i) else .ok false := by
  rw [isNull]
  split
  · rfl
  · split
    · next hc =>
      split
      · rfl
      · next j hj => exact absurd ⟨hc, hj⟩ (h j)
    · rfl

theorem isNull_eq_ok_true_iff (i : Nat) : f.isNull i = .ok true ↔ f.ReachesNull i := by
  unfold ReachesNull
  fun_induction f.isNull i with
  | case1 i hn => simpa using ⟨i, .refl, hn⟩
  | case2 i hn hc hj =>
    have hno : ∀ j, ¬f.Converts i j := fun j h => by cases hj.symm.trans h.2
    rw [reaches_of_not_converts hno]
    simp [hn]
  | case3 i hn hc j hj ih => rw [ih, reaches_of_converts ⟨hc, hj⟩ hn]
  | case4 i hn hc =>
    rw [reaches_of_not_converts fun j h => hc h.1]
    simp [hn]

theorem isNull_eq_error_iff (i : Nat) (e : Fault) :
    f.isNull i = .error e ↔ f.Reaches (fun j => f.IsHollow j ∧ e = .emptyConversion j) i := by
  fun_induction f.isNull i with
  | case1 i hn =>
    have hc := isConversion_eq_false_of_isNullLiteral hn
    rw [reaches_of_not_converts fun j h => Bool.false_ne_true (hc.symm.trans h.1)]
    simp [IsHollow, hc]
  | case2 i hn hc hj =>
    rw [reaches_of_not_converts fun j h => by cases hj.symm.trans h.2]
    simp [IsHollow, hc, hj, eq_comm]
  | case3 i hn hc j hj ih =>
    rw [ih, reaches_of_converts ⟨hc, hj⟩]
    rintro ⟨⟨-, hn⟩, -⟩
    cases hn.symm.trans hj
  | case4 i hn hc =>
    rw [reaches_of_not_converts fun j h => hc h.1]
    simp [IsHollow, hc]

theorem isNull_error_iff (i : Nat) : (∃ e, f.isNull i = .error e) ↔ f.Reaches f.IsHollow i := by
  simp only [isNull_eq_error_iff]
  constructor
  · rintro ⟨e, j, hj, hh, -⟩
    exact ⟨j, hj, hh⟩
  · rintro ⟨j, hj, hh⟩
    exact ⟨_, j, hj, hh, rfl⟩

theorem Filled.isNull (hf : f.Filled) (i : Nat) :
    ∃ b, f.isNull i = .ok b ∧ (b = true ↔ f.ReachesNull i) := by
  cases h : f.isNull i with
  | error e => exact absurd ((isNull_error_iff i).1 ⟨e, h⟩) (hf.not_reaches_isHollow i)
  | ok b => exact ⟨b, rfl, by rw [← isNull_eq_ok_true_iff, h, Except.ok.injEq]⟩

end Forest

end CollationLint
