import CollationLint.Proofs.Loading
import CollationLint.Proofs.Outcomes
import CollationLint.Proofs.StableSort

namespace CollationLint

structure Resolver.Calms (calm resolver : Resolver) : Prop where
  refuses : ∀ assembly name arguments c, resolver assembly name arguments = .crashed c →
    ∃ e, calm assembly name arguments = .refused e
  agrees : ∀ assembly name arguments, (∀ c, resolver assembly name arguments ≠ .crashed c) →
    calm assembly name arguments = resolver assembly name arguments

def hush {α : Type} : Except Crash (Option α) → Except Crash (Option α)
  | .error _ => .ok none
  | .ok found => .ok found

namespace TypeRef

variable {calm resolver : Resolver}

theorem ofAnswer_of_calms (h : calm.Calms resolver) (assembly name : String)
    (arguments : List LoadedType) :
    ofAnswer (calm assembly name arguments) = hush (ofAnswer (resolver assembly name arguments)) := by
  cases ha : resolver assembly name arguments with
  | crashed c =>
    obtain ⟨e, he⟩ := h.refuses _ _ _ c ha
    rw [he]
    rfl
  | found t =>
    rw [h.agrees _ _ _ (by simp [ha]), ha]
    rfl
  | refused e =>
    rw [h.agrees _ _ _ (by simp [ha]), ha]
    rfl

mutual

theorem load_of_calms (h : calm.Calms resolver) :
    (r : TypeRef) → load calm r = hush (load resolver r)
  | .named space name assembly arguments => by
    rw [load_named, load_named, loadAll_of_calms h arguments]
    rcases loadAll resolver arguments with c | _ | loaded
    · rfl
    · rfl
    · exact ofAnswer_of_calms h _ _ _
  | .array element => by simp only [load]; rfl
  | .parameter name => by simp only [load]; rfl

theorem loadAll_of_calms (h : calm.Calms resolver) :
    (rs : List TypeRef) → loadAll calm rs = hush (loadAll resolver rs)
  | [] => by simp only [loadAll]; rfl
  | r :: rs => by
    rw [loadAll_cons, loadAll_cons, load_of_calms h r, loadAll_of_calms h rs]
    rcases load resolver r with c | _ | t
    · rfl
    · rfl
    · rcases loadAll resolver rs with c | _ | ts <;> rfl

end

end TypeRef

namespace Linter

variable {linter : Linter} {calm : Resolver} {f : Forest} {i : Nat} {memo : AncestryMemo}

theorem crash_of_check {d : Diagnostic} (hd : (linter.check f i memo).1 = some d)
    (hc : d.reportsCrash = true) :
    ∃ n target c, f.node? i = some n ∧ f.target? i = some target ∧
      f.inScope linter.known.entryPoints i = true ∧ target.LoadCrashes linter.resolver c ∧
      d = .fault name (Fault.crashed c).description (Fault.crashed c).trace n.location := by
  obtain ⟨n, target, hn, ht, hs, hu, hcheck⟩ | ⟨outcome, hcalm, hcheck⟩ := linter.check_cases f i
  · have hcheck : linter.check f i = _ := hcheck linter.resolver
    rw [hcheck] at hd
    rcases hl : target.owner.load linter.resolver with c | _ | t
    · rw [hl] at hd
      cases hd
      exact ⟨n, target, c, hn, ht, hs, ⟨hu, hl⟩, rfl⟩
    · rw [hl] at hd
      cases hd
    · rw [hl] at hd
      rw [linter.reportsCrash_of_record (by simp) d hd] at hc
      cases hc
  · have hcheck : linter.check f i = _ := hcheck linter.resolver
    rw [hcheck] at hd
    rw [hcalm d hd] at hc
    cases hc

variable (h : calm.Calms linter.resolver)
include h

theorem check_over_calm :
    (linter.withResolver calm).check f i memo =
      ((linter.check f i memo).1.filter (!·.reportsCrash), (linter.check f i memo).2) := by
  have kept {outcome : Option Diagnostic} (ho : ∀ d, outcome = some d → d.reportsCrash = false) :
      outcome.filter (!·.reportsCrash) = outcome := by
    cases outcome with
    | none => rfl
    | some d => simp [ho d rfl]
  obtain ⟨n, target, -, -, -, -, hcheck⟩ | ⟨outcome, ho, hcheck⟩ := linter.check_cases f i
  · have hown : linter.check f i = _ := hcheck linter.resolver
    rw [hcheck, hown, TypeRef.load_of_calms h]
    rcases target.owner.load linter.resolver with c | _ | t
    · have hcrash := (Diagnostic.reportsCrash_fault name (Fault.crashed c).trace (.crashed c)
        n.location).2 ⟨c, rfl⟩
      have hdropped : (linter.record n.location (.error (.crashed c))).filter (!·.reportsCrash) = none := by
        simp only [record, Option.filter_some, hcrash, Bool.not_true, Bool.false_eq_true, ↓reduceIte]
      exact Prod.ext hdropped.symm rfl
    · rfl
    · have hkept (answer : Bool) : (linter.record n.location (.ok answer)).filter (!·.reportsCrash) =
          linter.record n.location (.ok answer) :=
        kept (linter.reportsCrash_of_record (by simp))
      exact Prod.ext (hkept _).symm rfl
  · have hown : linter.check f i = _ := hcheck linter.resolver
    rw [hcheck, hown]
    exact Prod.ext (kept ho).symm rfl

theorem mapM_check_over_calm (is : List Nat) :
    is.mapM ((linter.withResolver calm).check f) memo =
      ((is.mapM (linter.check f) memo).1.map (Option.filter (!·.reportsCrash)),
        (is.mapM (linter.check f) memo).2) := by
  induction is generalizing memo with
  | nil => rfl
  | cons i is ih =>
    rw [mapM_cons_apply, mapM_cons_apply, check_over_calm h, ih]
    rfl

omit h in
theorem exists_check_of_mapM {is : List Nat} {k : Nat} {outcome : Option Diagnostic}
    (hk : (is.mapM (linter.check f) memo).1[k]? = some outcome) :
    ∃ i memo', is[k]? = some i ∧ (linter.check f i memo').1 = outcome := by
  induction is generalizing memo k with
  | nil => cases hk
  | cons i is ih =>
    rw [mapM_cons_apply] at hk
    cases k with
    | zero => exact ⟨i, memo, rfl, Option.some.inj hk⟩
    | succ k => exact ih hk

end Linter

namespace Linter

variable (linter : Linter) (f : Forest)

def outcomesFrom (memo : AncestryMemo) : List (Option Diagnostic) := (f.ids.mapM (linter.check f) memo).1

theorem run_eq_mergeSort_outcomesFrom (memo : AncestryMemo) :
    (linter.run f memo).1 =
      ((linter.outcomesFrom f memo).filterMap id).mergeSort (noLater Diagnostic.location) :=
  rfl

variable {linter f} {memo : AncestryMemo}

theorem outcomesFrom_over_calm {calm : Resolver} (h : calm.Calms linter.resolver) :
    (linter.withResolver calm).outcomesFrom f memo =
      (linter.outcomesFrom f memo).map (Option.filter (!·.reportsCrash)) := by
  rw [outcomesFrom, mapM_check_over_calm h]
  rfl

theorem exists_check_of_outcomesFrom {i : Nat} {outcome : Option Diagnostic}
    (hi : (linter.outcomesFrom f memo)[i]? = some outcome) :
    ∃ memo', (linter.check f i memo').1 = outcome := by
  obtain ⟨j, memo', hj, hcheck⟩ := exists_check_of_mapM hi
  obtain rfl : i = j := by
    rw [Arena.ids, List.getElem?_eq_some_iff] at hj
    obtain ⟨hlt, hj⟩ := hj
    rwa [List.getElem_range] at hj
  exact ⟨memo', hcheck⟩

theorem mem_run_iff_outcomesFrom {d : Diagnostic} :
    d ∈ (linter.run f memo).1 ↔ ∃ i : Nat, (linter.outcomesFrom f memo)[i]? = some (some d) := by
  have hmem : d ∈ (linter.outcomesFrom f memo).filterMap id ↔ some d ∈ linter.outcomesFrom f memo := by simp
  rw [run_eq_mergeSort_outcomesFrom, (List.mergeSort_perm _ _).mem_iff, hmem, List.mem_iff_getElem?]

theorem run_over_calm (linter : Linter) (calm : Resolver) (h : calm.Calms linter.resolver) (f : Forest) :
    ((linter.withResolver calm).run f .empty).1 = (linter.run f .empty).1.filter (!·.reportsCrash) ∧
    ∀ d ∈ (linter.run f .empty).1, d.reportsCrash = true → ∃ (i : Nat) (n : Node) (target : MethodRef),
      f.node? i = some n ∧ f.target? i = some target ∧ target.IsUnary "Contains" ∧
      f.inScope linter.known.entryPoints i = true ∧ d.ruleId = "INV9999" ∧ d.location = n.location ∧
      (linter.outcomesFrom f .empty)[i]? = some (some d) ∧
      ((linter.withResolver calm).outcomesFrom f .empty)[i]? = some none := by
  constructor
  · rw [run_eq_mergeSort_outcomesFrom, run_eq_mergeSort_outcomesFrom, outcomesFrom_over_calm h,
      List.filterMap_map]
    have hsort := (isStableSort_mergeSort Diagnostic.location
      ((linter.outcomesFrom f .empty).filterMap id)).filter (!·.reportsCrash)
    rw [isStableSort_iff, List.filter_filterMap] at hsort
    exact hsort.symm
  · intro d hd hc
    obtain ⟨i, hi⟩ := mem_run_iff_outcomesFrom.1 hd
    obtain ⟨memo, hcheck⟩ := exists_check_of_outcomesFrom hi
    obtain ⟨n, target, c, hn, ht, hs, ⟨hu, -⟩, hfault⟩ := crash_of_check hcheck hc
    refine ⟨i, n, target, hn, ht, hu, hs, ?_, ?_, hi, ?_⟩
    · rw [hfault]
      rfl
    · rw [hfault]
      rfl
    · rw [outcomesFrom_over_calm h, List.getElem?_map, hi]
      simp [hc]

end Linter

namespace Library

def calm : Resolver := fun assembly name arguments =>
  if assembly = "Crashing" then .refused (.assemblyNotFound assembly)
  else unsteady assembly name arguments

theorem calm_calms : calm.Calms unsteady where
  refuses assembly name arguments c h := by
    by_cases ha : assembly = "Crashing"
    · exact ⟨_, if_pos ha⟩
    · simp only [unsteady, ha, ↓reduceIte, Assemblies.resolver] at h
      split at h <;> try cases h
      split at h <;> try cases h
      split at h <;> cases h
  agrees assembly name arguments h := by
    by_cases ha : assembly = "Crashing"
    · exact absurd (if_pos ha) (h _)
    · exact if_neg ha

def halfCrashingQuery : Forest := query [
  stringLocal "a",
  stringLocal "b",
  ⟨.binary .equals, none, site, [0, 1]⟩,
  ⟨.reference .localVariable "owner", none, site, []⟩,
  ⟨.invocation (containsTarget "Crashing"), none, site, [3]⟩,
  ⟨.block, none, site, [2, 4]⟩]

end Library

theorem Linter.half_crashing_query_calmed :
    ((Library.unsteadyLinter.outcomesFrom Library.halfCrashingQuery .empty).map (·.map (·.reportsCrash)) =
      [none, none, some false, none, some true, none, none, none, none]) ∧
    ((Library.unsteadyLinter.withResolver Library.calm).run Library.halfCrashingQuery .empty).1 =
      (Library.unsteadyLinter.run Library.halfCrashingQuery .empty).1.filter (!·.reportsCrash) := by
  constructor
  · decide +kernel
  · exact (Library.unsteadyLinter.run_over_calm Library.calm Library.calm_calms _).1

end CollationLint
