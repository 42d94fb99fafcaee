import CollationLint.Proofs.EagerBinding
import CollationLint.Proofs.Forwarding

namespace CollationLint

section Failure

variable {ε α β σ : Type}

def failureOf : Except ε α → Option ε
  | .ok _ => none
  | .error e => some e

theorem failureOf_eq_some_iff {x : Except ε α} {e : ε} : failureOf x = some e ↔ x = .error e := by
  cases x <;> simp [failureOf]

theorem failureOf_eq_none_iff {x : Except ε α} : failureOf x = none ↔ ∃ a, x = .ok a := by
  cases x <;> simp [failureOf]

theorem failureOf_mapError {ε' : Type} (x : Except ε α) (g : ε → ε') :
    failureOf (x.mapError g) = (failureOf x).map g := by
  cases x <;> rfl

theorem failureOf_bind {x : Except ε α} {f : α → Except ε β} {failure? : σ → Option ε} {step : σ} {steps : List σ}
    (hx : failureOf x = failure? step) (hf : ∀ a, x = .ok a → failureOf (f a) = steps.findSome? failure?) :
    failureOf (x >>= f) = (step :: steps).findSome? failure? := by
  cases x with
  | error e =>
    rw [List.findSome?_cons, ← hx]
    rfl
  | ok a =>
    rw [List.findSome?_cons, ← hx]
    exact hf a rfl

theorem failureOf_bind_of_ok {x : Except ε α} {f : α → Except ε β} (hf : ∀ a, x = .ok a → ∃ b, f a = .ok b) :
    failureOf (x >>= f) = failureOf x := by
  cases x with
  | error e => rfl
  | ok a => exact failureOf_eq_none_iff.2 (hf a rfl)

theorem failureOf_mapM (g : α → Except ε β) (as : List α) :
    failureOf (as.mapM g) = as.findSome? fun a => failureOf (g a) := by
  induction as with
  | nil => rfl
  | cons a as ih =>
    rw [List.mapM_cons]
    refine failureOf_bind ?_ fun b _ => ?_
    · rfl
    · rw [← ih]
      exact failureOf_bind_of_ok fun bs _ => ⟨b :: bs, rfl⟩

end Failure

namespace LoadedType

variable {t : LoadedType} {stem : String}

theorem exists_unary_definition (hg : t.isGenericDefinition = true) (hname : t.fullName = withArity stem 1) :
    ∃ d, t = .defined d ∧ d.isGeneric = true ∧ d.arity = 1 := by
  obtain ⟨d, rfl, hd⟩ := isGenericDefinition_iff.1 hg
  exact ⟨d, rfl, hd, Declaration.arity_eq_of_fullName hd hname⟩

theorem failureOf_bind_singleton (hname : t.fullName = withArity stem 1) (a : LoadedType) :
    failureOf (t.bind [a]) = if t.isGenericDefinition then none else some (.notGeneric (withArity stem 1)) := by
  split
  · next hg =>
    obtain ⟨d, rfl, hd, harity⟩ := exists_unary_definition hg hname
    exact failureOf_eq_none_iff.2 ⟨_, bind_defined_eq_ok_iff.2 ⟨hd, harity.symm, rfl⟩⟩
  · next hg =>
    rw [failureOf_eq_some_iff, ← hname]
    exact (t.bind_settledBy [a]).notGeneric (by simpa using hg)

end LoadedType

namespace Assemblies

variable {as : Assemblies} {type : TypeName}

theorem resolve_ne_notBindable {assembly name : String} (cause : BindingError) :
    as.resolve assembly name [] ≠ .error (.notBindable cause) := by
  rw [resolve_nil]
  exact follow_ne_notBindable cause

theorem find_resolver (as : Assemblies) (type : TypeName) :
    WellKnown.find as.resolver type = (as.resolve type.assembly type.name []).mapError (.missing type) := by
  rw [WellKnown.find, resolver]
  cases as.resolve type.assembly type.name [] <;> rfl

theorem lookup?_of_find {t : LoadedType} (h : WellKnown.find as.resolver type = .ok t) :
    as.lookup? type.assembly type.name = some t := by
  rw [find_resolver, mapError_eq_ok_iff] at h
  rw [lookup?, h]
  rfl

theorem fullName_of_find {t : LoadedType} (h : WellKnown.find as.resolver type = .ok t) : t.fullName = type.name :=
  (mem_types_of_follow (follow_of_lookup? (lookup?_of_find h))).2

end Assemblies

inductive LoadStep where
  | find (type : TypeName)
  | bind (type : TypeName)
  | countEntryPoints

namespace LoadStep

def sequence (settings : Settings) : TypeName :=
  ⟨settings.coreLibrary, "System.Collections.Generic.IEnumerable`1"⟩

def all (settings : Settings) : List LoadStep :=
  [.find ⟨settings.coreLibrary, "System.Object"⟩, .find ⟨settings.coreLibrary, "System.String"⟩,
    .find (sequence settings), .bind (sequence settings),
    .find ⟨settings.sequenceLibrary, "System.Linq.Enumerable"⟩, .countEntryPoints]
    ++ settings.entryPoints.map .find

variable (settings : Settings) (as : Assemblies)

def failure? : LoadStep → Option LoadError
  | .find type => (failureOf (as.resolve type.assembly type.name [])).map (.missing type)
  | .bind type =>
    if (as.lookup? type.assembly type.name).any (·.isGenericDefinition) then none
    else some (.notBindable (.notGeneric type.name))
  | .countEntryPoints => if settings.entryPoints.isEmpty then some .noEntryPoints else none

variable {settings as}

theorem failure?_find_eq_none_iff {type : TypeName} :
    (find type).failure? settings as = none ↔ (as.lookup? type.assembly type.name).isSome = true := by
  rw [failure?, Option.map_eq_none_iff, Assemblies.lookup?]
  cases as.resolve type.assembly type.name [] <;> simp [failureOf, Except.toOption]

theorem failure?_bind_eq_none_iff {type : TypeName} : (bind type).failure? settings as = none ↔
    ∃ t, as.lookup? type.assembly type.name = some t ∧ t.isGenericDefinition = true := by
  simp [failure?, Option.any_eq_true]

theorem failure?_countEntryPoints_eq_none_iff :
    countEntryPoints.failure? settings as = none ↔ settings.entryPoints ≠ [] := by
  simp [failure?]

theorem ne_wrongArity_of_failure? {step : LoadStep} {e : LoadError} (h : step.failure? settings as = some e)
    (name : String) (expected found : Nat) : e ≠ .notBindable (.wrongArity name expected found) ∧
      ∀ type, e ≠ .missing type (.notBindable (.wrongArity name expected found)) := by
  cases step with
  | find type =>
    obtain ⟨cause, hcause, rfl⟩ := Option.map_eq_some_iff.1 h
    refine ⟨nofun, ?_⟩
    intro type' hmissing
    cases hmissing
    exact Assemblies.resolve_ne_notBindable _ (failureOf_eq_some_iff.1 hcause)
  | bind type =>
    rw [failure?] at h
    split at h <;> cases h
    exact ⟨nofun, nofun⟩
  | countEntryPoints =>
    rw [failure?] at h
    split at h <;> cases h
    exact ⟨nofun, nofun⟩

end LoadStep

namespace WellKnown

open LoadedType LoadStep

variable {settings : Settings} {as : Assemblies}

/-- The type parameter of the method is none of the definition's own, so that binding the method binds the
sequence of its elements as well. -/
theorem exists_contains {methods : LoadedType} {d : Definition} (hg : d.isGeneric = true) (harity : d.arity = 1)
    (howner : methods.fullName ++ "." ++ "Contains" ≠ d.fullName) (string : LoadedType) :
    ∃ contains, containsMethod methods (.defined d) = .ok contains ∧ contains.bind [string] =
      .ok ⟨methods, "Contains", true, .bound ["TSource"] [string], [d.instantiate [string], string]⟩ := by
  let p : Parameter := ⟨methods.assembly, methods.fullName ++ "." ++ "Contains", "TSource", 0⟩
  have hbind : (defined d).bind [.parameter p] = .ok (d.instantiate [.parameter p]) :=
    bind_defined_eq_ok_iff.2 ⟨hg, harity.symm, rfl⟩
  have hown : ∀ q ∈ d.parameters, ([p].zip [string]).lookup q = none := by
    intro q hq
    apply lookup_zip_of_notMem
    rw [List.mem_singleton]
    rintro rfl
    exact howner (Declaration.owner_of_mem_parameters hq)
  have helement : (parameter p).subst ([p].zip [string]) = string := by simp [subst]
  have helements : (d.instantiate [.parameter p]).subst ([p].zip [string]) = d.instantiate [string] := by
    rw [subst_instantiate hown, List.map_singleton, helement]
  refine ⟨.generic methods "Contains" true ["TSource"] [d.instantiate [.parameter p], .parameter p],
    bind_eq_ok_iff.2 ⟨_, hbind, rfl⟩, ?_⟩
  change Except.ok (LoadedMethod.mk methods "Contains" true (.bound ["TSource"] [string])
    ([d.instantiate [.parameter p], .parameter p].map (subst ([p].zip [string])))) = _
  rw [List.map_cons, List.map_singleton, helements, helement]

theorem exists_contains_of_find {string strings sequence methods : LoadedType}
    (hsequence : find as.resolver (LoadStep.sequence settings) = .ok sequence)
    (hstrings : sequence.bind [string] = .ok strings)
    (hmethods : find as.resolver ⟨settings.sequenceLibrary, "System.Linq.Enumerable"⟩ = .ok methods) :
    ∃ contains, containsMethod methods sequence = .ok contains ∧ contains.bind [string] =
      .ok ⟨methods, "Contains", true, .bound ["TSource"] [string], [strings, string]⟩ := by
  obtain ⟨d, rfl, hg, harity, rfl⟩ := exists_definition_of_bind hstrings
  apply exists_contains hg harity.symm
  -- a parameter is owned by what declares it: one by the method, the other by the sequence
  have hname : d.fullName = "System.Collections.Generic.IEnumerable`1" := Assemblies.fullName_of_find hsequence
  have hmethods : methods.fullName = "System.Linq.Enumerable" := Assemblies.fullName_of_find hmethods
  rw [hmethods, hname]
  decide

theorem failureOf_find (type : TypeName) :
    failureOf (find as.resolver type) = (LoadStep.find type).failure? settings as := by
  rw [Assemblies.find_resolver, failureOf_mapError, failure?]

theorem failureOf_bind_sequence {sequence : LoadedType} (string : LoadedType)
    (h : find as.resolver (LoadStep.sequence settings) = .ok sequence) :
    failureOf ((sequence.bind [string]).mapError LoadError.notBindable) =
      (LoadStep.bind (LoadStep.sequence settings)).failure? settings as := by
  have hname : sequence.fullName = withArity "System.Collections.Generic.IEnumerable" 1 :=
    Assemblies.fullName_of_find h
  rw [failureOf_mapError, failureOf_bind_singleton hname, failure?, Assemblies.lookup?_of_find h, Option.any_some]
  split <;> rfl

theorem failureOf_entryPoints : failureOf (settings.entryPoints.mapM (find as.resolver)) =
    (settings.entryPoints.map LoadStep.find).findSome? (failure? settings as) := by
  rw [failureOf_mapM, List.findSome?_map]
  congr 1
  funext type
  exact failureOf_find type

theorem failureOf_load (settings : Settings) (as : Assemblies) :
    failureOf (load settings as.resolver) = (LoadStep.all settings).findSome? (failure? settings as) := by
  rw [load]
  refine failureOf_bind (failureOf_find _) fun object _ => ?_
  refine failureOf_bind (failureOf_find _) fun string _ => ?_
  refine failureOf_bind (failureOf_find _) fun sequence hsequence => ?_
  refine failureOf_bind (failureOf_bind_sequence string hsequence) fun strings hstrings => ?_
  refine failureOf_bind (failureOf_find _) fun methods hmethods => ?_
  obtain ⟨contains, hcontains, hbound⟩ :=
    exists_contains_of_find hsequence (mapError_eq_ok_iff.1 hstrings) hmethods
  have hcount : countEntryPoints.failure? settings as =
      if settings.entryPoints.isEmpty then some .noEntryPoints else none := rfl
  change _ = (countEntryPoints :: settings.entryPoints.map .find).findSome? (failure? settings as)
  rw [List.findSome?_cons, hcount]
  split
  · rfl
  · -- all that is left after the entry points is to put together what has been found
    rw [← failureOf_entryPoints]
    apply failureOf_bind_of_ok
    intro entryPoints _
    exact ⟨_, bind_eq_ok_iff.2 ⟨contains, mapError_eq_ok_iff.2 hcontains,
      bind_eq_ok_iff.2 ⟨_, mapError_eq_ok_iff.2 hbound, rfl⟩⟩⟩

end WellKnown

open WellKnown in
theorem WellKnown.load_settled_by_first_failure (settings : Settings) (as : Assemblies) :
    ((∃ known, load settings as.resolver = .ok known) ↔
      (as.lookup? settings.coreLibrary "System.Object").isSome = true ∧
      (as.lookup? settings.coreLibrary "System.String").isSome = true ∧
      (∃ sequence, as.lookup? settings.coreLibrary "System.Collections.Generic.IEnumerable`1" = some sequence ∧
        sequence.isGenericDefinition = true) ∧
      (as.lookup? settings.sequenceLibrary "System.Linq.Enumerable").isSome = true ∧
      settings.entryPoints ≠ [] ∧
      ∀ type ∈ settings.entryPoints, (as.lookup? type.assembly type.name).isSome = true) ∧
    (∀ e, load settings as.resolver = .error e ↔
      (LoadStep.all settings).findSome? (LoadStep.failure? settings as) = some e) ∧
    (∀ e, load settings as.resolver = .error e → ∀ name expected found,
      e ≠ .notBindable (.wrongArity name expected found) ∧
      ∀ type, e ≠ .missing type (.notBindable (.wrongArity name expected found))) ∧
    ∀ known, load settings as.resolver = .ok known →
      as.lookup? settings.coreLibrary "System.String" = some known.string ∧
      (∃ sequence, as.lookup? settings.coreLibrary "System.Collections.Generic.IEnumerable`1" = some sequence ∧
        sequence.bind [known.string] = .ok known.strings) ∧
      known.sequenceContains.arguments = [known.string] ∧
      known.sequenceContains.parameters = [known.strings, known.string] := by
  have hfailure (e : LoadError) : load settings as.resolver = .error e ↔
      (LoadStep.all settings).findSome? (LoadStep.failure? settings as) = some e := by
    rw [← failureOf_load, failureOf_eq_some_iff]
  refine ⟨?_, hfailure, ?_, ?_⟩
  · rw [← failureOf_eq_none_iff, failureOf_load, List.findSome?_eq_none_iff]
    simp only [LoadStep.all, List.forall_mem_append, List.forall_mem_cons, List.forall_mem_map,
      LoadStep.failure?_find_eq_none_iff, LoadStep.failure?_bind_eq_none_iff,
      LoadStep.failure?_countEntryPoints_eq_none_iff, LoadStep.sequence]
    constructor
    · rintro ⟨⟨hobject, hstring, -, hsequence, hmethods, hne, -⟩, hentries⟩
      exact ⟨hobject, hstring, hsequence, hmethods, hne, hentries⟩
    · rintro ⟨hobject, hstring, ⟨sequence, hfound, hg⟩, hmethods, hne, hentries⟩
      have hsome := Option.isSome_of_eq_some hfound
      exact ⟨⟨hobject, hstring, hsome, ⟨sequence, hfound, hg⟩, hmethods, hne, nofun⟩, hentries⟩
  · intro e h
    obtain ⟨step, -, hstep⟩ := List.exists_of_findSome?_eq_some ((hfailure e).1 h)
    exact LoadStep.ne_wrongArity_of_failure? hstep
  · intro known h
    obtain ⟨_, sequence, methods, contains, -, hstring, hsequence, hstrings, hmethods, -, -, hcontains, hbound, -⟩ :=
      load_eq_ok h
    obtain ⟨contains', hcontains', hbound'⟩ := exists_contains_of_find hsequence hstrings hmethods
    cases hcontains.symm.trans hcontains'
    rw [Except.ok.inj (hbound.symm.trans hbound')]
    exact ⟨Assemblies.lookup?_of_find hstring, ⟨sequence, Assemblies.lookup?_of_find hsequence, hstrings⟩, rfl, rfl⟩

namespace Library

def plainSequences : Assemblies :=
  assemblies.register (holding coreAssembly
    [object, string, .bare .interface coreAssembly collectionsSpace "IEnumerable`1"])

def lostQueries : Settings := { Settings.standard with sequenceLibrary := "Nowhere", entryPoints := [] }

end Library

set_option maxRecDepth 10000 in
theorem WellKnown.first_of_two_failures_reported :
    Library.known.sequenceContains.parameters = [Library.known.strings, Library.known.string] ∧
    WellKnown.load Library.lostQueries Library.assemblies.resolver =
      .error (.missing ⟨"Nowhere", "System.Linq.Enumerable"⟩ (.assemblyNotFound "Nowhere")) ∧
    WellKnown.load Library.lostQueries Library.plainSequences.resolver =
      .error (.notBindable (.notGeneric "System.Collections.Generic.IEnumerable`1")) := by
  obtain ⟨-, -, -, hloaded⟩ := load_settled_by_first_failure .standard Library.assemblies
  refine ⟨(hloaded Library.known Library.load_standard).2.2.2, ?_, ?_⟩
  · exact ((load_settled_by_first_failure Library.lostQueries Library.assemblies).2.1 _).2 rfl
  · exact ((load_settled_by_first_failure Library.lostQueries Library.plainSequences).2.1 _).2 rfl

end CollationLint
