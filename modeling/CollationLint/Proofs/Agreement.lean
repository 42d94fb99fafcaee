import CollationLint.Linter
import CollationLint.Proofs.Operands

namespace CollationLint

namespace Forest

def AgreeBelow (n : Nat) (f g : Forest) : Prop := ∀ j < n, f.node? j = g.node? j

namespace AgreeBelow

variable {f g : Forest} {n i : Nat} (h : AgreeBelow n f g) (hi : i < n)
include h hi

theorem kind? : f.kind? i = g.kind? i := by
  rw [Forest.kind?, Forest.kind?, h i hi]

theorem target? : f.target? i = g.target? i := by
  rw [Forest.target?, Forest.target?, h.kind? hi]

theorem isFunction : f.isFunction i = g.isFunction i := by
  rw [Forest.isFunction, Forest.isFunction, h.kind? hi]

theorem children : f.children i = g.children i := by
  rw [Arena.children, Arena.children, h i hi]

theorem child? (k : Nat) : f.child? i k = g.child? i k := by
  rw [Arena.child?, Arena.child?, h.children hi]

theorem isDeclared (string : LoadedType) : f.isDeclared string i = g.isDeclared string i := by
  rw [Forest.isDeclared, Forest.isDeclared, type?, type?, h i hi]

theorem converts (j : Nat) : f.Converts i j ↔ g.Converts i j := by
  rw [Converts, Converts, isConversion, isConversion, h.kind? hi, h.child? hi]

theorem isStringTyped (string : LoadedType) : f.isStringTyped string i = g.isStringTyped string i := by
  rw [Forest.isStringTyped, Forest.isStringTyped, h.isDeclared hi, isConversion, isConversion, h.kind? hi,
    ← h.child? hi]
  cases hj : f.child? i 0 with
  | none => rfl
  | some j =>
    have hlt : j < n := Nat.lt_trans (lt_of_child? hj) hi
    simp only [h.isDeclared hlt]

theorem isString (string : LoadedType) : f.IsString string i ↔ g.IsString string i := by
  rw [← isStringTyped_eq_ok_true_iff, h.isStringTyped hi, isStringTyped_eq_ok_true_iff]

theorem isNull : f.isNull i = g.isNull i := by
  induction i using Nat.strongRecOn with
  | _ i ih =>
    by_cases hc : ∃ j, f.Converts i j
    · obtain ⟨j, hj⟩ := hc
      have hlt : j < i := lt_of_child? hj.2
      calc f.isNull i = f.isNull j := isNull_of_converts hj
        _ = g.isNull j := ih j hlt (Nat.lt_trans hlt hi)
        _ = g.isNull i := (isNull_of_converts ((h.converts hi j).1 hj)).symm
    · have hf : ∀ j, ¬f.Converts i j := fun j hj => hc ⟨j, hj⟩
      have hg : ∀ j, ¬g.Converts i j := fun j hj => hc ⟨j, (h.converts hi j).2 hj⟩
      rw [isNull_of_not_converts hf, isNull_of_not_converts hg, isNullLiteral, isNullLiteral,
        isConversion, isConversion, h.kind? hi]

theorem reachesNull : f.ReachesNull i ↔ g.ReachesNull i := by
  rw [← isNull_eq_ok_true_iff, h.isNull hi, isNull_eq_ok_true_iff]

theorem arguments : f.arguments i = g.arguments i := by
  rw [Forest.arguments, Forest.arguments, ← h.children hi]
  apply List.filter_congr
  intro c hc
  rw [h.kind? (Nat.lt_trans (f.linked.descending i c hc) hi)]

theorem argumentValue? (k : Nat) : f.argumentValue? i k = g.argumentValue? i k := by
  rw [Forest.argumentValue?, Forest.argumentValue?, ← h.arguments hi]
  cases ha : (f.arguments i)[k]? with
  | none => rfl
  | some argument =>
    have hlt : argument < i := lt_of_mem_arguments (List.mem_of_getElem? ha)
    exact h.child? (Nat.lt_trans hlt hi) 0

end AgreeBelow

end Forest

namespace WellKnown

variable (known : WellKnown) {f g : Forest} {n i : Nat} (h : Forest.AgreeBelow n f g) (hi : i < n)
include h hi

theorem argumentIsString_congr (k : Nat) : known.argumentIsString f i k = known.argumentIsString g i k := by
  rw [argumentIsString, argumentIsString, ← h.argumentValue? hi]
  cases hv : f.argumentValue? i k with
  | none => rfl
  | some v => exact h.isStringTyped (Nat.lt_trans (Forest.lt_of_argumentValue? hv) hi) known.string

variable (hs : f.inScope known.entryPoints i = g.inScope known.entryPoints i)
include hs

theorem flagsComparison_congr : known.flagsComparison f i = known.flagsComparison g i := by
  rw [flagsComparison, flagsComparison, Forest.operator?, Forest.operator?, h.kind? hi, ← h.child? hi,
    ← h.child? hi, hs]
  cases hl : f.child? i 0 with
  | none => rfl
  | some left =>
    cases hr : f.child? i 1 with
    | none => rfl
    | some right =>
      have hli : left < n := Nat.lt_trans (Forest.lt_of_child? hl) hi
      have hri : right < n := Nat.lt_trans (Forest.lt_of_child? hr) hi
      simp only [h.isStringTyped hli, h.isStringTyped hri, h.isNull hli, h.isNull hri]

theorem ruling_congr (resolver : Resolver) : known.ruling resolver f i = known.ruling resolver g i := by
  simp only [ruling, h.target? hi, hs, known.argumentIsString_congr h hi]

theorem flagsCall_congr (resolver : Resolver) :
    known.flagsCall resolver f i = known.flagsCall resolver g i := by
  rw [flagsCall, flagsCall, known.ruling_congr h hi hs]

end WellKnown

namespace Linter

variable (linter : Linter) {f g : Forest} {n i : Nat} (h : Forest.AgreeBelow n f g) (hi : i < n)
  (hs : f.inScope linter.known.entryPoints i = g.inScope linter.known.entryPoints i)
include h hi hs

theorem checkComparison_congr : linter.checkComparison f i = linter.checkComparison g i := by
  rw [checkComparison, checkComparison, h i hi, linter.known.flagsComparison_congr h hi hs]

theorem checkCall_congr : linter.checkCall f i = linter.checkCall g i := by
  rw [checkCall, checkCall, h i hi, linter.known.flagsCall_congr h hi hs]

end Linter

end CollationLint
