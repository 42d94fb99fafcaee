import CollationLint.Linter
import Mathlib.Data.List.Forall2

namespace CollationLint

theorem bind_eq_ok_iff {ε α β : Type} {x : Except ε α} {f : α → Except ε β} {b : β} :
    (x >>= f) = .ok b ↔ ∃ a, x = .ok a ∧ f a = .ok b := by
  cases x <;> simp [bind, Except.bind]

theorem mapError_eq_ok_iff {ε ε' α : Type} {x : Except ε α} {g : ε → ε'} {a : α} :
    x.mapError g = .ok a ↔ x = .ok a := by
  cases x with
  | error e => exact ⟨nofun, nofun⟩
  | ok b =>
    constructor
    · intro h
      cases h
      rfl
    · intro h
      cases h
      rfl

namespace LoadedMethod

theorem exists_names_of_bind {m b : LoadedMethod} {arguments : List LoadedType} (h : m.bind arguments = .ok b) :
    ∃ names, m.genericity = .unbound names ∧ arguments.length = names.length ∧
      b = ⟨m.owner, m.name, m.isStatic, .bound names arguments,
        m.parameters.map (LoadedType.subst ((typeParametersOf m.owner m.name names).zip arguments))⟩ := by
  unfold LoadedMethod.bind at h
  split at h
  · next names hg =>
    split at h
    · cases h
    · next hlen =>
      cases h
      exact ⟨names, hg, (Decidable.not_not.1 hlen).symm, rfl⟩
  · cases h

def HasShape (m : LoadedMethod) (name : String) (isStatic : Bool) (arity : Nat) : Prop :=
  m.name = name ∧ m.isStatic = isStatic ∧ m.parameters.length = arity

theorem HasShape.of_bind {m b : LoadedMethod} {arguments : List LoadedType} {name : String}
    {isStatic : Bool} {arity : Nat} (hm : m.HasShape name isStatic arity) (h : m.bind arguments = .ok b) :
    b.HasShape name isStatic arity := by
  obtain ⟨names, -, -, rfl⟩ := exists_names_of_bind h
  exact ⟨hm.1, hm.2.1, by simpa using hm.2.2⟩

end LoadedMethod

theorem Lockstep.agree_iff {α β : Type} {p : α → β → Bool} {as : List α} {bs : List β} :
    agree p as bs = true ↔ List.Forall₂ (fun a b => p a b = true) as bs := by
  induction as generalizing bs with
  | nil => cases bs <;> simp [agree]
  | cons a as ih =>
    cases bs with
    | nil => simp [agree]
    | cons b bs => simp [agree, ih]

namespace MethodRef

variable {r : MethodRef} {m : LoadedMethod}

theorem denotes_iff : r.denotes m = true ↔ r.name = m.name ∧ r.owner.denotes m.owner = true ∧
    r.isStatic = m.isStatic ∧ r.isGeneric = m.isGeneric ∧
    (m.isGeneric = false ∨ m.isGenericDefinition = true ∨
      List.Forall₂ (fun s t => s.denotes t = true) r.typeArguments m.arguments) ∧
    List.Forall₂ (fun t p => t.isParameter = true ∨ p.type.denotes t = true) m.parameters r.parameters := by
  simp [denotes, Lockstep.agree_iff, and_assoc, or_assoc]

theorem shape_of_denotes {name : String} {isStatic : Bool} {arity : Nat} (hm : m.HasShape name isStatic arity)
    (h : r.denotes m = true) : r.name = name ∧ r.isStatic = isStatic ∧ r.parameters.length = arity := by
  obtain ⟨hn, -, hs, -, -, hp⟩ := denotes_iff.1 h
  exact ⟨hn.trans hm.1, hs.trans hm.2.1, hp.length_eq.symm.trans hm.2.2⟩

end MethodRef

namespace WellKnown

variable {settings : Settings} {resolver : Resolver} {known : WellKnown}

theorem load_eq_ok (h : load settings resolver = .ok known) :
    ∃ object sequence methods contains,
      find resolver ⟨settings.coreLibrary, "System.Object"⟩ = .ok object ∧
      find resolver ⟨settings.coreLibrary, "System.String"⟩ = .ok known.string ∧
      find resolver ⟨settings.coreLibrary, "System.Collections.Generic.IEnumerable`1"⟩ = .ok sequence ∧
      sequence.bind [known.string] = .ok known.strings ∧
      find resolver ⟨settings.sequenceLibrary, "System.Linq.Enumerable"⟩ = .ok methods ∧
      settings.entryPoints.isEmpty = false ∧
      settings.entryPoints.mapM (find resolver) = .ok known.entryPoints ∧
      containsMethod methods sequence = .ok contains ∧
      contains.bind [known.string] = .ok known.sequenceContains ∧
      known.staticStringEquals = .plain known.string "Equals" true [known.string, known.string] ∧
      known.stringEquals = .plain known.string "Equals" false [known.string] ∧
      known.staticObjectEquals = .plain object "Equals" true [object, object] := by
  simp only [load] at h
  obtain ⟨object, hobject, h⟩ := bind_eq_ok_iff.1 h
  obtain ⟨string, hstring, h⟩ := bind_eq_ok_iff.1 h
  obtain ⟨sequence, hsequence, h⟩ := bind_eq_ok_iff.1 h
  obtain ⟨strings, hstrings, h⟩ := bind_eq_ok_iff.1 h
  obtain ⟨methods, hmethods, h⟩ := bind_eq_ok_iff.1 h
  cases he : settings.entryPoints.isEmpty with
  | true => simp [he, throw, throwThe, MonadExceptOf.throw, bind, Except.bind] at h
  | false =>
    simp only [he, Bool.false_eq_true, ↓reduceIte] at h
    obtain ⟨-, -, h⟩ := bind_eq_ok_iff.1 h
    obtain ⟨entryPoints, hentries, h⟩ := bind_eq_ok_iff.1 h
    obtain ⟨contains, hcontains, h⟩ := bind_eq_ok_iff.1 h
    obtain ⟨bound, hbound, h⟩ := bind_eq_ok_iff.1 h
    cases h
    exact ⟨object, sequence, methods, contains, hobject, hstring, hsequence, mapError_eq_ok_iff.1 hstrings,
      hmethods, rfl, hentries, mapError_eq_ok_iff.1 hcontains, mapError_eq_ok_iff.1 hbound, rfl, rfl, rfl⟩

theorem hasShape_of_containsMethod {methods sequence : LoadedType} {contains : LoadedMethod}
    (h : containsMethod methods sequence = .ok contains) : contains.HasShape "Contains" true 2 := by
  obtain ⟨elements, -, h⟩ := bind_eq_ok_iff.1 h
  cases h
  exact ⟨rfl, rfl, rfl⟩

variable (known) in
def IsLoaded : Prop := ∃ settings resolver, load settings resolver = .ok known

theorem IsLoaded.shapes (hk : known.IsLoaded) :
    known.staticStringEquals.HasShape "Equals" true 2 ∧ known.stringEquals.HasShape "Equals" false 1 ∧
      known.sequenceContains.HasShape "Contains" true 2 ∧
      known.staticObjectEquals.HasShape "Equals" true 2 := by
  obtain ⟨settings, resolver, h⟩ := hk
  obtain ⟨_, _, _, _, -, -, -, -, -, -, -, hc, hb, hss, hs, ho⟩ := load_eq_ok h
  rw [hss, hs, ho]
  exact ⟨⟨rfl, rfl, rfl⟩, ⟨rfl, rfl, rfl⟩, (hasShape_of_containsMethod hc).of_bind hb, ⟨rfl, rfl, rfl⟩⟩

end WellKnown

theorem Linter.ofSettings_eq_ok_iff {settings : Settings} {resolver : Resolver} {linter : Linter} :
    ofSettings settings resolver = .ok linter ↔ WellKnown.load settings resolver = .ok linter.known ∧
      linter.resolver = resolver ∧
      linter.severity = settings.severity.getD Rule.implicitCollation.defaultSeverity := by
  constructor
  · intro h
    obtain ⟨known, hk, h⟩ := bind_eq_ok_iff.1 h
    cases h
    exact ⟨hk, rfl, rfl⟩
  · obtain ⟨known, resolver, severity⟩ := linter
    rintro ⟨hk, rfl, rfl⟩
    exact bind_eq_ok_iff.2 ⟨known, hk, rfl⟩

namespace Library

def known : WellKnown where
  string := .defined string
  strings := .constructed sequence [.defined string]
  entryPoints := [.defined queryMethods]
  staticStringEquals := .plain (.defined string) "Equals" true [.defined string, .defined string]
  stringEquals := .plain (.defined string) "Equals" false [.defined string]
  sequenceContains := ⟨.defined sequenceMethods, "Contains", true, .bound ["TSource"] [.defined string],
    [.constructed sequence [.defined string], .defined string]⟩
  staticObjectEquals := .plain (.defined object) "Equals" true [.defined object, .defined object]

set_option maxRecDepth 10000 in
theorem load_standard : WellKnown.load .standard assemblies.resolver = .ok known := rfl

theorem known_isLoaded : known.IsLoaded := ⟨_, _, load_standard⟩

def linter : Linter := .ofKnown known assemblies.resolver

def site : Location := .point "Query" 1 1

def mention (d : Definition) : TypeRef := .named d.space d.simpleName d.assembly []

/-- A call that hands the provider a lambda. Its body is the last of `nodes`. -/
def query (nodes : List Node) : Forest :=
  (Forest.empty.addAll (nodes ++ [
    ⟨.anonymousFunction, none, site, [nodes.length - 1]⟩,
    ⟨.argument, none, site, [nodes.length]⟩,
    ⟨.invocation ⟨mention queryMethods, "Where", true, [], []⟩, none, site, [nodes.length + 1]⟩])).2

def stringLocal (name : String) : Node :=
  ⟨.reference .localVariable name, some (mention string), site, []⟩

end Library

end CollationLint
