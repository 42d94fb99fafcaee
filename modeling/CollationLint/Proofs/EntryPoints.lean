import CollationLint.Proofs.Crashes
import CollationLint.Proofs.Enclosure
import CollationLint.Proofs.History
import Mathlib.Data.List.Nodup

namespace CollationLint

theorem mem_iff_of_mapM_eq_ok {ε α β : Type} {g : α → Except ε β} {as : List α} {bs : List β}
    (h : as.mapM g = .ok bs) (b : β) : b ∈ bs ↔ ∃ a ∈ as, g a = .ok b := by
  induction as generalizing bs with
  | nil =>
    cases h
    simp
  | cons a as ih =>
    rw [List.mapM_cons] at h
    obtain ⟨c, hc, h⟩ := bind_eq_ok_iff.1 h
    obtain ⟨cs, hcs, h⟩ := bind_eq_ok_iff.1 h
    cases h
    simp [ih hcs, hc, eq_comm]

theorem filterMap_sublist_filterMap {α β : Type} {g h : α → Option β} (hgh : ∀ a, g a = none ∨ h a = g a)
    (l : List α) : (l.filterMap g).Sublist (l.filterMap h) := by
  have hsame : l.filterMap g = (l.filter fun a => (g a).isSome).filterMap h := by
    rw [List.filterMap_filter]
    apply List.filterMap_congr
    intro a _
    rcases hgh a with hnone | heq
    · simp [hnone]
    · rw [heq]
      cases g a <;> rfl
  rw [hsame]
  exact List.filter_sublist.filterMap h

theorem Forest.inScope_mono {f : Forest} {i : Nat} {entryPoints more : List LoadedType}
    (hsub : entryPoints ⊆ more) (h : f.inScope entryPoints i = true) : f.inScope more i = true := by
  obtain ⟨call, function, target, hg, ht⟩ := exists_governs_of_inScope h
  rw [inScope_of_governs hg ht, List.any_eq_true] at h ⊢
  obtain ⟨e, he, hd⟩ := h
  exact ⟨e, hsub he, hd⟩

namespace WellKnown

def withEntryPoints (known : WellKnown) (entryPoints : List LoadedType) : WellKnown :=
  { known with entryPoints }

section Load

variable {settings : Settings} {more : List TypeName} {resolver : Resolver} {known known' : WellKnown}
  (h : load settings resolver = .ok known)
  (h' : load { settings with entryPoints := more } resolver = .ok known')
include h h'

theorem load_withEntryPoints : known' = known.withEntryPoints known'.entryPoints := by
  obtain ⟨object, sequence, methods, contains, hobject, hstring, hsequence, hstrings, hmethods, -, -,
    hcontains, hbound, hss, hs, ho⟩ := load_eq_ok h
  obtain ⟨object', sequence', methods', contains', hobject', hstring', hsequence', hstrings', hmethods', -, -,
    hcontains', hbound', hss', hs', ho'⟩ := load_eq_ok h'
  obtain ⟨string, strings, entryPoints, staticStringEquals, stringEquals, sequenceContains,
    staticObjectEquals⟩ := known
  obtain ⟨string', strings', entryPoints', staticStringEquals', stringEquals', sequenceContains',
    staticObjectEquals'⟩ := known'
  cases hobject.symm.trans hobject'
  cases hstring.symm.trans hstring'
  cases hsequence.symm.trans hsequence'
  cases hstrings.symm.trans hstrings'
  cases hmethods.symm.trans hmethods'
  cases hcontains.symm.trans hcontains'
  cases hbound.symm.trans hbound'
  cases hss.trans hss'.symm
  cases hs.trans hs'.symm
  cases ho.trans ho'.symm
  rfl

theorem entryPoints_subset_of_load (hsub : settings.entryPoints ⊆ more) :
    known.entryPoints ⊆ known'.entryPoints := by
  obtain ⟨_, _, _, _, -, -, -, -, -, -, hentries, -⟩ := load_eq_ok h
  obtain ⟨_, _, _, _, -, -, -, -, -, -, hentries', -⟩ := load_eq_ok h'
  intro e he
  obtain ⟨type, htype, hfind⟩ := (mem_iff_of_mapM_eq_ok hentries e).1 he
  exact (mem_iff_of_mapM_eq_ok hentries' e).2 ⟨type, hsub htype, hfind⟩

end Load

variable {known : WellKnown} {more : List LoadedType} {f : Forest} {i : Nat}

theorem flagsComparison_withEntryPoints_error_iff {e : Fault} :
    (known.withEntryPoints more).flagsComparison f i = .error e ↔ known.flagsComparison f i = .error e := by
  by_cases ho : (f.operator? i).any (·.testsEquality) = true
  · cases hr : f.child? i 1 with
    | none => simp [flagsComparison, ho, hr]
    | some right =>
      obtain ⟨left, hl⟩ := Forest.child?_zero_of_child?_one hr
      rw [flagsComparison_of_operands _ ho hl hr, flagsComparison_of_operands _ ho hl hr,
        guarded_eq_error_iff, guarded_eq_error_iff]
      exact Iff.rfl
  · simp [flagsComparison, ho]

theorem flagsComparison_withEntryPoints (hsub : known.entryPoints ⊆ more) :
    known.flagsComparison f i = .ok false ∨
      (known.withEntryPoints more).flagsComparison f i = known.flagsComparison f i := by
  -- a fault does not depend on the scope, and a violation stays in scope
  rcases hb : known.flagsComparison f i with e | _ | _
  · exact .inr (flagsComparison_withEntryPoints_error_iff.2 hb)
  · exact .inl rfl
  · have hs := known.inScope_of_flagsComparison hb
    have hs' := Forest.inScope_mono hsub hs
    right
    rw [← hb]
    simp only [flagsComparison, withEntryPoints, hs, hs']

theorem flagsCall_withEntryPoints (resolver : Resolver) (hs : f.inScope known.entryPoints i = true)
    (hs' : f.inScope more i = true) :
    (known.withEntryPoints more).flagsCall resolver f i = known.flagsCall resolver f i := by
  have hr : (known.withEntryPoints more).ruling resolver f i = known.ruling resolver f i := by
    simp only [ruling, withEntryPoints, hs, hs']
    rfl
  rw [flagsCall, hr]
  rfl

end WellKnown

namespace Linter

def withEntryPoints (linter : Linter) (entryPoints : List LoadedType) : Linter :=
  { linter with known := linter.known.withEntryPoints entryPoints }

variable {linter : Linter} {more : List LoadedType}

theorem check_withEntryPoints (hsub : linter.known.entryPoints ⊆ more) (f : Forest) (i : Nat)
    (memo : AncestryMemo) :
    (linter.check f i memo).1 = none ∨
      (linter.withEntryPoints more).check f i memo = linter.check f i memo := by
  cases checkCase f i with
  | comparison _ hc =>
    rw [hc, hc]
    rcases WellKnown.flagsComparison_withEntryPoints hsub with hb | hb
    · left
      rw [hb]
      rfl
    · right
      rw [← hb]
      rfl
  | call _ ht hc =>
    by_cases hs : f.inScope linter.known.entryPoints i = true
    · right
      have hcall : (linter.withEntryPoints more).known.flagsCall (linter.withEntryPoints more).resolver f i =
          linter.known.flagsCall linter.resolver f i :=
        WellKnown.flagsCall_withEntryPoints linter.resolver hs (Forest.inScope_mono hsub hs)
      rw [hc, hc, hcall]
      rfl
    · left
      rw [hc, WellKnown.flagsCall_of_not_inScope linter.resolver ht (Bool.not_eq_true _ ▸ hs)]
      rfl
  | other hc =>
    left
    rw [hc]

theorem isStableSort_run {memo : AncestryMemo} (hs : linter.IsSteady) (hm : linter.Trusts memo) (f : Forest) :
    IsStableSort Diagnostic.location (f.ids.filterMap fun i => (linter.check f i .empty).1)
      (linter.run f memo).1 := by
  have hrecords := (mapM_check_of_trusts hs hm f f.ids).1
  rw [isStableSort_iff, run_eq_mergeSort_outcomesFrom, outcomesFrom, hrecords, List.filterMap_map]
  rfl

section Settings

variable {resolver : Resolver} (hr : resolver.IsCoherent) {settings : Settings} {more : List TypeName}
  (hsub : settings.entryPoints ⊆ more) {narrow wide : Linter}
  (hn : ofSettings settings resolver = .ok narrow)
  (hw : ofSettings { settings with entryPoints := more } resolver = .ok wide)

include hsub hn hw in
theorem exists_withEntryPoints_of_ofSettings :
    ∃ entryPoints, narrow.known.entryPoints ⊆ entryPoints ∧ wide = narrow.withEntryPoints entryPoints := by
  obtain ⟨hload, hresolver, hseverity⟩ := ofSettings_eq_ok_iff.1 hn
  obtain ⟨hload', hresolver', hseverity'⟩ := ofSettings_eq_ok_iff.1 hw
  refine ⟨wide.known.entryPoints, WellKnown.entryPoints_subset_of_load hload hload' hsub, ?_⟩
  obtain ⟨known, resolver', severity⟩ := wide
  rw [withEntryPoints, ← WellKnown.load_withEntryPoints hload hload', Linter.mk.injEq]
  exact ⟨rfl, hresolver'.trans hresolver.symm, hseverity'.trans hseverity.symm⟩

include hr hsub hn hw in
theorem run_sublist_run (history history' : List Request) (f : Forest) :
    (narrow.run f (narrow.memoAfter history)).1.Sublist (wide.run f (wide.memoAfter history')).1 := by
  obtain ⟨entryPoints, hmore, heq⟩ := exists_withEntryPoints_of_ofSettings hsub hn hw
  have steady {linter : Linter} (h : linter.resolver = resolver) : linter.IsSteady := by
    apply isSteady_of_isCoherent
    rw [h]
    exact hr
  have hsn := steady (ofSettings_eq_ok_iff.1 hn).2.1
  have hsw := steady (ofSettings_eq_ok_iff.1 hw).2.1
  apply (isStableSort_run hsn (trusts_memoAfter hsn history) f).sublist
    (isStableSort_run hsw (trusts_memoAfter hsw history') f)
  apply filterMap_sublist_filterMap
  intro i
  rw [heq]
  rcases check_withEntryPoints hmore f i .empty with hnone | hsame
  · exact .inl hnone
  · exact .inr (congrArg Prod.fst hsame)

theorem records_grow_with_entryPoints (resolver : Resolver) (hr : resolver.IsCoherent) (settings : Settings)
    (more : List TypeName) (hsub : settings.entryPoints ⊆ more) (narrow wide : Linter)
    (hn : ofSettings settings resolver = .ok narrow)
    (hw : ofSettings { settings with entryPoints := more } resolver = .ok wide)
    (history history' : List Request) (f : Forest) :
    (narrow.run f (narrow.memoAfter history)).1.Sublist (wide.run f (wide.memoAfter history')).1 ∧
    (more ⊆ settings.entryPoints →
      (narrow.run f (narrow.memoAfter history)).1 = (wide.run f (wide.memoAfter history')).1) := by
  have hgrow := run_sublist_run hr hsub hn hw history history' f
  refine ⟨hgrow, fun hback => ?_⟩
  exact hgrow.antisymm (run_sublist_run hr hback hw hn history' history f)

end Settings

end Linter

namespace Library

def definitionsOnly : Resolver := fun assembly name arguments =>
  if arguments.isEmpty then assemblies.resolver assembly name [] else .refused (.assemblyNotFound assembly)

theorem definitionsOnly_isCoherent : definitionsOnly.IsCoherent := by
  have held {assembly name : String} {arguments : List LoadedType} {t : LoadedType}
      (h : definitionsOnly assembly name arguments = .found t) : t ∈ assemblies.types := by
    cases arguments with
    | cons a as => cases h
    | nil =>
      obtain ⟨s, hs, -, h⟩ := Assemblies.mem_types_of_found h
      rcases h with ⟨-, rfl⟩ | ⟨hne, -⟩
      · exact hs
      · exact absurd rfl hne
  have hnodup : (assemblies.types.map LoadedType.identity).Nodup := by decide +kernel
  intro _ _ _ _ _ _ s t hs ht hst
  rw [List.inj_on_of_nodup_map hnodup (held hs) (held ht) (LoadedType.beq_iff.1 hst)]
  exact ⟨rfl, fun _ => Iff.rfl⟩

def narrowLinter : Linter := .ofKnown known definitionsOnly

def wideLinter : Linter := narrowLinter.withEntryPoints [.defined sequenceMethods, .defined queryMethods]

def wideSettings : Settings :=
  { Settings.standard with entryPoints :=
      ⟨queryAssembly, sequenceMethods.fullName⟩ :: Settings.standard.entryPoints }

theorem ofSettings_standard : Linter.ofSettings .standard definitionsOnly = .ok narrowLinter :=
  Linter.ofSettings_eq_ok_iff.2 ⟨load_standard, rfl, rfl⟩

set_option maxRecDepth 10000 in
theorem ofSettings_wide : Linter.ofSettings wideSettings definitionsOnly = .ok wideLinter := rfl

def twoComparisons : Forest := query [
  stringLocal "a",
  stringLocal "b",
  ⟨.binary .equals, none, onLine 2, [0, 1]⟩,
  ⟨.anonymousFunction, none, site, [2]⟩,
  ⟨.argument, none, site, [3]⟩,
  ⟨.invocation ⟨mention sequenceMethods, "Any", true, [], []⟩, none, site, [4]⟩,
  stringLocal "c",
  stringLocal "d",
  ⟨.binary .notEquals, none, onLine 1, [6, 7]⟩,
  ⟨.block, none, site, [5, 8]⟩]

end Library

theorem Linter.entryPoint_adds_record :
    (Library.narrowLinter.run Library.twoComparisons .empty).1.Sublist
        (Library.wideLinter.run Library.twoComparisons .empty).1 ∧
      (Library.narrowLinter.run Library.twoComparisons .empty).1.length = 1 ∧
      (Library.wideLinter.run Library.twoComparisons .empty).1.length = 2 := by
  refine ⟨?_, ?_, ?_⟩
  · exact (Linter.records_grow_with_entryPoints Library.definitionsOnly Library.definitionsOnly_isCoherent
      .standard Library.wideSettings.entryPoints (List.subset_cons_self _ _) _ _ Library.ofSettings_standard
      Library.ofSettings_wide [] [] Library.twoComparisons).1
  · rw [run_eq_mergeSort_outcomesFrom, List.length_mergeSort]
    decide +kernel
  · rw [run_eq_mergeSort_outcomesFrom, List.length_mergeSort]
    decide +kernel

end CollationLint
