import CollationLint.Proofs.Outcomes

namespace CollationLint

namespace MethodRef

/-- Compares two operands, the receiver among them, and takes nothing that says how. -/
def IsBareComparison (target : MethodRef) : Prop :=
  (target.name = "Equals" ∨ target.name = "Contains") ∧
    target.parameters.length = if target.isStatic then 2 else 1

variable {target : MethodRef}

theorem IsUnary.isBareComparison {name : String} (h : target.IsUnary name)
    (hn : name = "Equals" ∨ name = "Contains") : target.IsBareComparison := by
  obtain ⟨hst, rfl, hlen⟩ := h
  exact ⟨hn, by rw [hst]; exact hlen⟩

theorem isBareComparison_of_denotes {m : LoadedMethod} {name : String} {isStatic : Bool}
    (hm : m.HasShape name isStatic (if isStatic then 2 else 1)) (hn : name = "Equals" ∨ name = "Contains")
    (h : target.denotes m = true) : target.IsBareComparison := by
  obtain ⟨rfl, rfl, hlen⟩ := shape_of_denotes hm h
  exact ⟨hn, hlen⟩

end MethodRef

namespace WellKnown

variable {known : WellKnown} {f : Forest} {i : Nat} {target : MethodRef}

theorem IsLoaded.isBareComparison_of_stringMethod (hk : known.IsLoaded)
    (h : known.DenotesStringMethod target) : target.IsBareComparison := by
  obtain ⟨hss, hs, hc, -⟩ := hk.shapes
  rcases h with h | h | h
  · exact MethodRef.isBareComparison_of_denotes hss (.inl rfl) h
  · exact MethodRef.isBareComparison_of_denotes hs (.inl rfl) h
  · exact MethodRef.isBareComparison_of_denotes hc (.inr rfl) h

theorem IsLoaded.ruling_of_not_isBareComparison (hk : known.IsLoaded) (resolver : Resolver)
    (ht : f.target? i = some target) (hb : ¬target.IsBareComparison) :
    known.ruling resolver f i = .ok .clear := by
  have same {target' : MethodRef} (ht' : f.target? i = some target') : ¬target'.IsBareComparison := by
    cases ht.symm.trans ht'
    exact hb
  cases known.rulingCase f i with
  | notCall hn _ => cases ht.symm.trans hn
  | clear _ hr => exact hr resolver
  | stringMethod ht' _ hm _ => exact absurd (hk.isBareComparison_of_stringMethod hm) (same ht')
  | objectEquals ht' _ ho _ =>
    exact absurd (MethodRef.isBareComparison_of_denotes hk.shapes.2.2.2 (.inl rfl) ho) (same ht')
  | otherEquals ht' _ he _ => exact absurd (he.isBareComparison (.inl rfl)) (same ht')
  | otherContains ht' _ hc _ => exact absurd (hc.isBareComparison (.inr rfl)) (same ht')

end WellKnown

namespace Linter

variable {settings : Settings} {resolver : Resolver} {linter : Linter} {f : Forest} {i : Nat}
  {target : MethodRef}

theorem checkCall_of_not_isBareComparison (hk : linter.known.IsLoaded) (ht : f.target? i = some target)
    (hb : ¬target.IsBareComparison) (memo : AncestryMemo) : linter.checkCall f i memo = (none, memo) := by
  obtain ⟨n, hn⟩ := Forest.exists_node_of_kind? (Forest.kind?_of_target? ht)
  rw [linter.checkCall_eq hn,
    WellKnown.flagsCall_of_ruling (hk.ruling_of_not_isBareComparison linter.resolver ht hb)]
  rfl

theorem overload_with_comparer_silent (hl : ofSettings settings resolver = .ok linter)
    (ht : f.target? i = some target) (memo : AncestryMemo) :
    (∀ d, (linter.checkCall f i memo).1 = some d →
      (target.name = "Equals" ∨ target.name = "Contains") ∧
        (target.isStatic = true → target.parameters.length = 2) ∧
        (target.isStatic = false → target.parameters.length = 1)) ∧
    ((if target.isStatic then 2 else 1) < target.parameters.length →
      linter.checkCall f i memo = (none, memo)) := by
  have hk : linter.known.IsLoaded := ⟨settings, resolver, (ofSettings_eq_ok_iff.1 hl).1⟩
  have silent := checkCall_of_not_isBareComparison hk ht
  constructor
  · intro d hd
    by_cases hb : target.IsBareComparison
    · obtain ⟨hname, hlen⟩ := hb
      refine ⟨hname, fun hst => ?_, fun hst => ?_⟩
      · simpa [hst] using hlen
      · simpa [hst] using hlen
    · rw [silent hb memo] at hd
      cases hd
  · intro hmore
    apply silent
    rintro ⟨-, hlen⟩
    omega

end Linter

namespace Library

def equalsTarget (extra : List ParameterRef) : MethodRef :=
  ⟨mention string, "Equals", true, [], [⟨"a", mention string⟩, ⟨"b", mention string⟩] ++ extra⟩

def comparisonParameter : ParameterRef :=
  ⟨"comparisonType", .named "System" "StringComparison" facadeAssembly []⟩

def equalsQuery (extra : List ParameterRef) : Forest := query [
  stringLocal "a",
  stringLocal "b",
  ⟨.reference .field "Ordinal", some comparisonParameter.type, site, []⟩,
  ⟨.argument, none, site, [0]⟩,
  ⟨.argument, none, site, [1]⟩,
  ⟨.argument, none, site, [2]⟩,
  ⟨.invocation (equalsTarget extra), none, site, [3, 4, 5].take (2 + extra.length)⟩]

end Library

theorem Linter.equals_with_comparison_silent :
    (Library.linter.checkCall (Library.equalsQuery []) 6 .empty).1.map (·.ruleId) = some "INV1000" ∧
      Library.linter.checkCall (Library.equalsQuery [Library.comparisonParameter]) 6 .empty =
        (none, .empty) := by
  have hl : ofSettings .standard Library.assemblies.resolver = .ok Library.linter :=
    ofSettings_eq_ok_iff.2 ⟨Library.load_standard, rfl, rfl⟩
  have ht : (Library.equalsQuery [Library.comparisonParameter]).target? 6 =
      some (Library.equalsTarget [Library.comparisonParameter]) := by decide +kernel
  exact ⟨by decide +kernel, (Linter.overload_with_comparer_silent hl ht .empty).2 (by decide)⟩

end CollationLint
