import CollationLint.Proofs.Calls

namespace CollationLint

theorem WellKnown.flagsCall_of_not_inScope {known : WellKnown} (resolver : Resolver) {f : Forest} {i : Nat}
    {target : MethodRef} (ht : f.target? i = some target) (hs : f.inScope known.entryPoints i = false)
    (memo : AncestryMemo) : known.flagsCall resolver f i memo = (.ok false, memo) := by
  rw [flagsCall_of_ruling (ruling_of_not_inScope ht hs)]
  rfl

namespace Linter

variable (linter : Linter) {f : Forest} {i : Nat} (memo : AncestryMemo)

theorem check_of_binary {operator : BinaryOperator} (hk : f.kind? i = some (.binary operator)) :
    linter.check f i memo = (linter.checkComparison f i, memo) := by
  simp only [check, hk]
  rfl

theorem check_of_invocation {target : MethodRef} (hk : f.kind? i = some (.invocation target)) :
    linter.check f i memo = linter.checkCall f i memo := by
  simp only [check, hk]

theorem check_of_other (ho : f.operator? i = none) (ht : f.target? i = none) :
    linter.check f i memo = (none, memo) := by
  cases hk : f.kind? i with
  | none =>
    simp only [check, hk]
    rfl
  | some kind =>
    cases kind with
    | binary operator => simp [Forest.operator?, hk, Kind.operator?] at ho
    | invocation target => simp [Forest.target?, hk, Kind.target?] at ht
    | _ =>
      simp only [check, hk]
      rfl

section OutOfScope

variable (hs : f.inScope linter.known.entryPoints i = false)
include hs

theorem checkCall_of_not_inScope {target : MethodRef} (hk : f.kind? i = some (.invocation target)) :
    linter.checkCall f i memo = (none, memo) := by
  obtain ⟨n, hn⟩ := Forest.exists_node_of_kind? hk
  have ht : f.target? i = some target := by rw [Forest.target?, hk]; rfl
  rw [linter.checkCall_eq hn, WellKnown.flagsCall_of_not_inScope linter.resolver ht hs]
  rfl

theorem checkComparison_eq_none_iff {operator : BinaryOperator}
    (hk : f.kind? i = some (.binary operator)) :
    linter.checkComparison f i = none ↔
      ¬((f.operator? i).any (·.testsEquality) = true ∧ f.IsUnreadable linter.known.string i) := by
  obtain ⟨n, hn⟩ := Forest.exists_node_of_kind? hk
  rw [linter.checkComparison_eq hn, ← WellKnown.flagsComparison_error_iff]
  rcases hb : linter.known.flagsComparison f i with e | _ | _
  · simp [record]
  · simp [record]
  · have := linter.known.inScope_of_flagsComparison hb
    simp [hs] at this

theorem isFault_of_checkComparison {operator : BinaryOperator}
    (hk : f.kind? i = some (.binary operator)) {d : Diagnostic}
    (h : linter.checkComparison f i = some d) : d.isFault = true := by
  obtain ⟨n, hn⟩ := Forest.exists_node_of_kind? hk
  rw [linter.checkComparison_eq hn, record_eq_some_iff] at h
  rcases h with ⟨-, hb⟩ | ⟨e, rfl, -⟩
  · have := linter.known.inScope_of_flagsComparison hb
    simp [hs] at this
  · simp [Diagnostic.isFault, Diagnostic.fault]

/-- Out of scope an operation leaves no record, unless it is a test for equality whose operands cannot be
read; that one leaves a fault. -/
theorem out_of_scope_silent_iff :
    ((linter.check f i memo).1 = none ↔
      ¬((f.operator? i).any (·.testsEquality) = true ∧ f.IsUnreadable linter.known.string i)) ∧
    (∀ d, (linter.check f i memo).1 = some d → d.isFault = true) ∧
    (linter.check f i memo).2 = memo := by
  cases ho : f.operator? i with
  | some operator =>
    have hk := Forest.kind?_of_operator? ho
    rw [← ho, linter.check_of_binary memo hk]
    exact ⟨linter.checkComparison_eq_none_iff hs hk,
      fun d => linter.isFault_of_checkComparison hs hk, rfl⟩
  | none =>
    cases ht : f.target? i with
    | some target =>
      have hk := Forest.kind?_of_target? ht
      rw [linter.check_of_invocation memo hk, linter.checkCall_of_not_inScope memo hs hk]
      simp
    | none =>
      rw [linter.check_of_other memo ho ht]
      simp

end OutOfScope

end Linter

namespace Library

def alone (n : Node) : Forest := (Forest.empty.addAll [n]).2

def callWithoutArgument : Node :=
  ⟨.invocation ⟨mention integer, "Equals", false, [], [⟨"other", mention object⟩]⟩, none, site, []⟩

def testWithoutOperands : Node := ⟨.binary .equals, none, site, []⟩

end Library

theorem Linter.broken_call_silent :
    (Library.linter.check (Library.alone Library.callWithoutArgument) 0 .empty).1 = none := by
  apply (Library.linter.out_of_scope_silent_iff .empty (by decide +kernel)).1.2
  rintro ⟨ho, -⟩
  exact absurd ho (by decide +kernel)

theorem Linter.broken_test_faults_out_of_scope :
    (Library.alone Library.testWithoutOperands).inScope Library.linter.known.entryPoints 0 = false ∧
      (Library.linter.check (Library.alone Library.testWithoutOperands) 0 .empty).1.map (·.isFault) =
        some true := by
  decide +kernel

end CollationLint
