import CollationLint.Proofs.Crashes

namespace CollationLint

def Resolver.IsCalm (resolver : Resolver) : Prop :=
  ∀ assembly name arguments c, resolver assembly name arguments ≠ .crashed c

theorem Assemblies.resolver_isCalm (as : Assemblies) : as.resolver.IsCalm := by
  intro assembly name arguments c
  rw [resolver]
  cases as.resolve assembly name arguments <;> simp

theorem TypeRef.load_ne_error {resolver : Resolver} (h : resolver.IsCalm) (r : TypeRef) (c : Crash) :
    r.load resolver ≠ .error c := by
  intro hr
  obtain ⟨assembly, name, arguments, hc⟩ := crashes_of_load r hr
  exact h assembly name arguments c hc

namespace Forest

inductive IsMalformed (f : Forest) (entryPoints : List LoadedType) (i : Nat) : Prop
  | missingOperand (ho : (f.operator? i).any (·.testsEquality) = true) (hc : (f.children i).length < 2)
  | hollowOperand {k operand : Nat} (ho : (f.operator? i).any (·.testsEquality) = true) (hk : k < 2)
      (hc : f.child? i k = some operand) (hh : f.Reaches f.IsHollow operand)
  | missingArgument {target : MethodRef} {k : Nat} (ht : f.target? i = some target)
      (hs : f.inScope entryPoints i = true) (hk : k < 2) (hp : k < target.parameters.length)
      (hv : f.argumentValue? i k = none)
  | hollowArgument {target : MethodRef} {k v : Nat} (ht : f.target? i = some target)
      (hs : f.inScope entryPoints i = true) (hk : k < 2) (hp : k < target.parameters.length)
      (hv : f.argumentValue? i k = some v) (hh : f.IsHollow v)

structure IsComplete (f : Forest) : Prop where
  operands : ∀ i, (f.operator? i).any (·.testsEquality) = true → 2 ≤ (f.children i).length
  conversions : f.Filled
  arguments : ∀ i target, f.target? i = some target →
    ∀ k < target.parameters.length, ∃ v, f.argumentValue? i k = some v

variable {f : Forest} {entryPoints : List LoadedType} {i : Nat}

theorem IsComplete.not_isMalformed (hf : f.IsComplete) : ¬f.IsMalformed entryPoints i := by
  intro h
  cases h with
  | missingOperand ho hc =>
    have := hf.operands i ho
    omega
  | hollowOperand _ _ _ hh => exact hf.conversions.not_reaches_isHollow _ hh
  | missingArgument ht _ _ hp hv =>
    obtain ⟨v, hv'⟩ := hf.arguments i _ ht _ hp
    cases hv.symm.trans hv'
  | hollowArgument _ _ _ _ _ hh => exact hf.conversions.not_isHollow _ hh

instance : Decidable f.IsComplete :=
  decidable_of_iff ((∀ i < f.size, (f.operator? i).any (·.testsEquality) = true → 2 ≤ (f.children i).length) ∧
    f.Filled ∧ ∀ i < f.size, ∀ target ∈ f.target? i,
      ∀ k < target.parameters.length, (f.argumentValue? i k).isSome = true) <| by
    constructor
    · rintro ⟨ho, hc, ha⟩
      refine ⟨fun i hi => ho i ?_ hi, hc, fun i target ht k hk => ?_⟩
      · obtain ⟨operator, hop, -⟩ := (Option.any_eq_true _ _).1 hi
        exact lt_size_of_kind? (kind?_of_operator? hop)
      · exact Option.isSome_iff_exists.1 (ha i (lt_size_of_kind? (kind?_of_target? ht)) target ht k hk)
    · intro hf
      exact ⟨fun i _ => hf.operands i, hf.conversions,
        fun i _ target ht k hk => Option.isSome_iff_exists.2 (hf.arguments i target ht k hk)⟩

theorem isMalformed_of_isUnreadable {string : LoadedType}
    (ho : (f.operator? i).any (·.testsEquality) = true) (h : f.IsUnreadable string i) :
    f.IsMalformed entryPoints i := by
  rcases h with hr | ⟨left, right, hl, hr, h⟩
  · have hlen := List.getElem?_eq_none_iff.1 hr
    exact .missingOperand ho (by omega)
  · have first (hh : f.Reaches f.IsHollow left) : f.IsMalformed entryPoints i :=
      .hollowOperand ho (by omega) hl hh
    have second (hh : f.Reaches f.IsHollow right) : f.IsMalformed entryPoints i :=
      .hollowOperand ho (by omega) hr hh
    rcases h with hu | ⟨-, hu⟩ | ⟨-, hh | ⟨-, hh⟩⟩
    · exact first ⟨left, .refl, hu.2⟩
    · exact second ⟨right, .refl, hu.2⟩
    · exact first hh
    · exact second hh

end Forest

namespace WellKnown

variable {known : WellKnown} {resolver : Resolver} {f : Forest} {i : Nat} {target : MethodRef} {e : Fault}

theorem ofBool_map_eq_error_iff {outcome : Except Fault Bool} :
    Ruling.ofBool <$> outcome = .error e ↔ outcome = .error e := by
  cases outcome <;> simp

theorem isMalformed_of_argumentIsString {k : Nat} (ht : f.target? i = some target)
    (hs : f.inScope known.entryPoints i = true) (hk : k < 2) (hp : k < target.parameters.length)
    (h : known.argumentIsString f i k = .error e) : f.IsMalformed known.entryPoints i := by
  rw [argumentIsString] at h
  cases hv : f.argumentValue? i k with
  | none => exact .missingArgument ht hs hk hp hv
  | some v =>
    rw [hv] at h
    exact .hollowArgument ht hs hk hp hv ((Forest.isStringTyped_eq_error_iff _ _ _).1 h).2.1

theorem isMalformed_of_ruling (hk : known.IsLoaded) (hc : resolver.IsCalm) (ht : f.target? i = some target)
    (h : known.ruling resolver f i = .error e) : f.IsMalformed known.entryPoints i := by
  cases known.rulingCase f i with
  | notCall hn _ => cases hn.symm.trans ht
  | clear _ hr => cases (hr resolver).symm.trans h
  | stringMethod _ _ _ hr => cases (hr resolver).symm.trans h
  | objectEquals ht hs ho hr =>
    have hlen := (MethodRef.shape_of_denotes hk.shapes.2.2.2 ho).2.2
    rw [hr resolver, ofBool_map_eq_error_iff, either_eq_error_iff] at h
    rcases h with h | ⟨-, h⟩
    · exact isMalformed_of_argumentIsString ht hs (by omega) (by omega) h
    · exact isMalformed_of_argumentIsString ht hs (by omega) (by omega) h
  | otherEquals ht hs he hr =>
    have hlen := he.2.2
    rw [hr resolver, ofBool_map_eq_error_iff] at h
    exact isMalformed_of_argumentIsString ht hs (by omega) (by omega) h
  | @otherContains target ht hs hu hr =>
    rw [hr resolver] at h
    rcases hl : target.owner.load resolver with c | _ | t
    · exact absurd hl (TypeRef.load_ne_error hc _ c)
    · rw [hl] at h
      cases h
    · rw [hl] at h
      cases h

theorem ruling_eq_error_of_flagsCall {memo : AncestryMemo}
    (h : (known.flagsCall resolver f i memo).1 = .error e) : known.ruling resolver f i = .error e := by
  cases hr : known.ruling resolver f i with
  | ok ruling =>
    rw [flagsCall_of_ruling hr] at h
    cases h
  | error e' =>
    rw [flagsCall_of_fault hr] at h
    cases h
    rfl

end WellKnown

namespace Linter

variable {linter : Linter} {f : Forest} {i : Nat} {memo : AncestryMemo} {d : Diagnostic}

theorem exists_fault_of_record {location : Location} {outcome : Except Fault Bool}
    (h : linter.record location outcome = some d) (hd : d.ruleId = Rule.fault.id) :
    ∃ e, outcome = .error e := by
  rw [record_eq_some_iff] at h
  rcases h with ⟨rfl, -⟩ | ⟨e, -, he⟩
  · have hid : Rule.implicitCollation.id ≠ Rule.fault.id := by decide
    exact absurd hd hid
  · exact ⟨e, he⟩

theorem isMalformed_of_check (hk : linter.known.IsLoaded) (hc : linter.resolver.IsCalm)
    (h : (linter.check f i memo).1 = some d) (hd : d.ruleId = Rule.fault.id) :
    f.IsMalformed linter.known.entryPoints i := by
  cases checkCase f i with
  | comparison _ hcheck =>
    rw [hcheck] at h
    obtain ⟨htest, hbad⟩ := linter.known.flagsComparison_error_iff.1 (exists_fault_of_record h hd)
    exact Forest.isMalformed_of_isUnreadable htest hbad
  | call _ ht hcheck =>
    rw [hcheck] at h
    obtain ⟨e, he⟩ := exists_fault_of_record h hd
    exact WellKnown.isMalformed_of_ruling hk hc ht (WellKnown.ruling_eq_error_of_flagsCall he)
  | other hcheck =>
    rw [hcheck] at h
    cases h

theorem fault_only_for_malformed (linter : Linter) (hk : linter.known.IsLoaded)
    (hc : linter.resolver.IsCalm) (f : Forest) (memo : AncestryMemo) :
    (∀ d, d ∈ (linter.run f memo).1 ↔ ∃ i : Nat, (linter.outcomesFrom f memo)[i]? = some (some d)) ∧
    (∀ (i : Nat) (d : Diagnostic), (linter.outcomesFrom f memo)[i]? = some (some d) →
      d.ruleId = Rule.fault.id → f.IsMalformed linter.known.entryPoints i) ∧
    (f.IsComplete → ∀ d ∈ (linter.run f memo).1, d.ruleId ≠ Rule.fault.id) := by
  have hbad (i : Nat) (d : Diagnostic) (hi : (linter.outcomesFrom f memo)[i]? = some (some d))
      (hd : d.ruleId = Rule.fault.id) : f.IsMalformed linter.known.entryPoints i := by
    obtain ⟨memo', hcheck⟩ := exists_check_of_outcomesFrom hi
    exact isMalformed_of_check hk hc hcheck hd
  refine ⟨fun d => mem_run_iff_outcomesFrom, hbad, ?_⟩
  intro hf d hmem hd
  obtain ⟨i, hi⟩ := mem_run_iff_outcomesFrom.1 hmem
  exact hf.not_isMalformed (hbad i d hi hd)

end Linter

namespace Library

def hollowQuery : Forest := query [
  ⟨.conversion, none, site, []⟩,
  ⟨.conversion, some (mention string), site, [0]⟩,
  stringLocal "a",
  ⟨.binary .equals, none, site, [1, 2]⟩]

end Library

theorem Linter.hollow_operand_malformed :
    Library.hollowQuery.IsMalformed Library.known.entryPoints 3 ∧
      ∀ d ∈ (Library.linter.run (Library.query (Library.containsCall Library.stringSet)) .empty).1,
        d.ruleId ≠ Rule.fault.id := by
  have only := Library.linter.fault_only_for_malformed Library.known_isLoaded
    (Library.assemblies.resolver_isCalm)
  constructor
  · have hfault : (Library.linter.outcomesFrom Library.hollowQuery .empty)[3]?.join.map (·.ruleId) =
        some Rule.fault.id := by decide +kernel
    obtain ⟨d, hd, hid⟩ := Option.map_eq_some_iff.1 hfault
    exact (only Library.hollowQuery .empty).2.1 3 d (Option.join_eq_some_iff.1 hd) hid
  · exact (only _ .empty).2.2 (by decide +kernel)

end CollationLint
