import CollationLint.Proofs.Shapes
import CollationLint.Proofs.TypeExpressions

namespace CollationLint

namespace LoadedMethod

inductive Obtainable : LoadedMethod → Prop
  | plain {owner : LoadedType} {name : String} {isStatic : Bool} {parameters : List LoadedType}
      (ho : owner.Obtainable) (hp : ∀ t ∈ parameters, t.Obtainable) :
      Obtainable (.plain owner name isStatic parameters)
  | generic {owner : LoadedType} {name : String} {isStatic : Bool} {names : List String}
      {parameters : List LoadedType} (ho : owner.Obtainable) (hp : ∀ t ∈ parameters, t.Obtainable) :
      Obtainable (.generic owner name isStatic names parameters)
  | bound {m n : LoadedMethod} {A : List LoadedType} (hm : Obtainable m) (ha : ∀ t ∈ A, t.Obtainable)
      (hb : m.bind A = .ok n) : Obtainable n

def types (m : LoadedMethod) : List LoadedType := m.owner :: (m.arguments ++ m.parameters)

variable {m n : LoadedMethod} {A : List LoadedType}

theorem mem_types_iff {t : LoadedType} :
    t ∈ m.types ↔ t = m.owner ∨ t ∈ m.arguments ∨ t ∈ m.parameters := by
  rw [types, List.mem_cons, List.mem_append]

theorem arguments_of_unbound {names : List String} (h : m.genericity = .unbound names) :
    m.arguments = (typeParametersOf m.owner m.name names).map .parameter := by
  rw [arguments, h]

theorem Obtainable.types (h : m.Obtainable) : ∀ t ∈ m.types, t.Obtainable := by
  induction h with
  | plain ho hp => simpa [LoadedMethod.types, LoadedMethod.plain, arguments] using ⟨ho, hp⟩
  | @generic owner name isStatic names parameters ho hp =>
    intro t ht
    rcases mem_types_iff.1 ht with rfl | ht | ht
    · exact ho
    · cases names with
      | nil => cases ht
      | cons n names =>
        obtain ⟨p, -, rfl⟩ := List.mem_map.1 ht
        exact .parameter p
    · exact hp t ht
  | @bound m n A hm ha hb ih =>
    obtain ⟨names, -, -, rfl⟩ := exists_names_of_bind hb
    intro t ht
    rcases mem_types_iff.1 ht with rfl | ht | ht
    · exact ih _ (mem_types_iff.2 (.inl rfl))
    · exact ha t ht
    · obtain ⟨u, hu, rfl⟩ := List.mem_map.1 ht
      apply LoadedType.Obtainable.subst _ (ih u (mem_types_iff.2 (.inr (.inr hu))))
      intro p a hp
      exact ha a (mem_of_lookup_zip hp)

theorem Obtainable.isGeneric_iff (h : m.Obtainable) : m.isGeneric = true ↔ m.arguments ≠ [] := by
  induction h with
  | plain ho hp => simp [isGeneric, arguments, LoadedMethod.plain]
  | @generic owner name isStatic names parameters ho hp =>
    cases names with
    | nil => simp [isGeneric, arguments, LoadedMethod.generic]
    | cons n names => simp [isGeneric, arguments, LoadedMethod.generic, typeParametersOf]
  | @bound m n A hm ha hb ih =>
    obtain ⟨names, hg, hlen, rfl⟩ := exists_names_of_bind hb
    -- a method that can be bound has type parameters, and gets as many arguments
    have hne : m.arguments ≠ [] := ih.1 (by rw [isGeneric, hg])
    rw [arguments_of_unbound hg, ← List.length_pos_iff, List.length_map, length_typeParametersOf, ← hlen,
      List.length_pos_iff] at hne
    exact ⟨fun _ => hne, fun _ => rfl⟩

structure IsConcrete (m : LoadedMethod) : Prop where
  obtainable : m.Obtainable
  notDefinition : m.isGenericDefinition = false
  closed : ∀ t ∈ m.types, t.isOpen = false
  names : ∀ t ∈ m.types, ∀ d ∈ t.mentions, d.isGeneric = false → '`' ∉ d.name.toList

def reflected (m : LoadedMethod) : MethodRef where
  owner := m.owner.reflected
  name := m.name
  isStatic := m.isStatic
  typeArguments := m.arguments.map LoadedType.reflected
  parameters := m.parameters.map fun t => ⟨"", t.reflected⟩

end LoadedMethod

namespace MethodRef

open LoadedMethod LoadedType

variable {r : MethodRef} {m n : LoadedMethod}

def unplaced (r : MethodRef) : MethodRef where
  owner := r.owner.unplaced
  name := r.name
  isStatic := r.isStatic
  typeArguments := r.typeArguments.map TypeRef.unplaced
  parameters := r.parameters.map fun p => ⟨"", p.type.unplaced⟩

theorem denotes_unplaced (r : MethodRef) (m : LoadedMethod) : r.unplaced.denotes m = r.denotes m := by
  rw [Bool.eq_iff_iff, denotes_iff, denotes_iff]
  simp only [unplaced, isGeneric, List.isEmpty_map, TypeRef.denotes_unplaced, List.forall₂_map_left_iff,
    List.forall₂_map_right_iff]

theorem isGeneric_reflected_iff (hn : n.Obtainable) :
    m.reflected.isGeneric = n.isGeneric ↔ (m.arguments = [] ↔ n.arguments = []) := by
  rw [Bool.eq_iff_iff, hn.isGeneric_iff, isGeneric, LoadedMethod.reflected]
  simp [not_iff_not]

section Concrete

variable (hm : m.IsConcrete) (hn : n.IsConcrete)
include hm hn

theorem denotes_type_iff {s t : LoadedType} (hs : s ∈ m.types) (ht : t ∈ n.types) :
    s.reflected.denotes t = true ↔ s.shape = t.shape :=
  denotes_reflected_iff (hm.obtainable.types s hs) (hm.closed s hs) (hm.names s hs) (hn.obtainable.types t ht)

theorem denotes_arguments_iff :
    List.Forall₂ (fun s t => s.denotes t = true) m.reflected.typeArguments n.arguments ↔
      m.arguments.map shape = n.arguments.map shape := by
  rw [LoadedMethod.reflected, List.forall₂_map_left_iff]
  apply forall₂_iff_map_eq
  intro s hs t ht
  exact denotes_type_iff hm hn (mem_types_iff.2 (.inr (.inl hs))) (mem_types_iff.2 (.inr (.inl ht)))

theorem denotes_parameters_iff :
    List.Forall₂ (fun t p => t.isParameter = true ∨ p.type.denotes t = true) n.parameters m.reflected.parameters ↔
      m.parameters.map shape = n.parameters.map shape := by
  rw [LoadedMethod.reflected, List.forall₂_map_right_iff, eq_comm]
  apply forall₂_iff_map_eq
  intro t ht s hs
  have ht' : t ∈ n.types := mem_types_iff.2 (.inr (.inr ht))
  have hs' : s ∈ m.types := mem_types_iff.2 (.inr (.inr hs))
  rw [isParameter_of_isOpen (hn.closed t ht'), denotes_type_iff hm hn hs' ht']
  simp [eq_comm]

theorem denotes_reflected_method_iff : m.reflected.denotes n = true ↔
    m.name = n.name ∧ m.isStatic = n.isStatic ∧ m.owner.shape = n.owner.shape ∧
      m.arguments.map shape = n.arguments.map shape ∧ m.parameters.map shape = n.parameters.map shape := by
  have howner : m.reflected.owner.denotes n.owner = true ↔ m.owner.shape = n.owner.shape :=
    denotes_type_iff hm hn (mem_types_iff.2 (.inl rfl)) (mem_types_iff.2 (.inl rfl))
  rw [denotes_iff, howner, isGeneric_reflected_iff hn.obtainable, denotes_arguments_iff hm hn,
    denotes_parameters_iff hm hn, hn.notDefinition]
  constructor
  · rintro ⟨hname, howner, hstatic, hgeneric, harguments, hparameters⟩
    refine ⟨hname, hstatic, howner, ?_, hparameters⟩
    rcases harguments with hplain | hdefinition | harguments
    · have hnil : n.arguments = [] := by
        by_contra hne
        rw [hn.obtainable.isGeneric_iff.2 hne] at hplain
        cases hplain
      rw [hnil, hgeneric.2 hnil]
    · cases hdefinition
    · exact harguments
  · rintro ⟨hname, hstatic, howner, harguments, hparameters⟩
    refine ⟨hname, howner, hstatic, ?_, .inr (.inr harguments), hparameters⟩
    have hlength := congrArg List.length harguments
    rw [List.length_map, List.length_map] at hlength
    rw [← List.length_eq_zero_iff, ← List.length_eq_zero_iff, hlength]

end Concrete

theorem denotes_iff_same_signature {m n : LoadedMethod} (hm : m.IsConcrete) (hn : n.IsConcrete) (r : MethodRef)
    (hr : r.unplaced = m.reflected.unplaced) :
    r.denotes n = true ↔ m.name = n.name ∧ m.isStatic = n.isStatic ∧ m.owner.shape = n.owner.shape ∧
      m.arguments.map shape = n.arguments.map shape ∧ m.parameters.map shape = n.parameters.map shape := by
  rw [← denotes_reflected_method_iff hm hn, ← denotes_unplaced r, hr, denotes_unplaced]

end MethodRef

namespace Library

def containsIn (owner : LoadedType) (element : String) : LoadedMethod :=
  let elements := (LoadedMethod.typeParametersOf owner "Contains" [element]).map LoadedType.parameter
  .generic owner "Contains" true [element] (sequence.instantiate elements :: elements)

def containsOf (owner : LoadedType) (element : String) (t : LoadedType) : LoadedMethod :=
  ⟨owner, "Contains", true, .bound [element] [t], [sequence.instantiate [t], t]⟩

def foreignMethods : Definition := .bare .interface "Elsewhere" "System.Linq" "Enumerable"

def containsStringRef : MethodRef where
  owner := viaFacade sequenceMethods []
  name := "Contains"
  isStatic := true
  typeArguments := [viaFacade string []]
  parameters := [⟨"source", viaFacade sequence [viaFacade string []]⟩, ⟨"value", viaFacade string []⟩]

theorem containsOf_isConcrete {owner t : LoadedType} {element : String}
    (hm : ∀ s ∈ (containsIn owner element).types, s.Obtainable)
    (hb : (containsIn owner element).bind [t] = .ok (containsOf owner element t))
    (ht : t.Obtainable) (hc : ∀ s ∈ (containsOf owner element t).types, s.isOpen = false)
    (hn : ∀ s ∈ (containsOf owner element t).types, ∀ d ∈ s.mentions, d.isGeneric = false → '`' ∉ d.name.toList) :
    (containsOf owner element t).IsConcrete where
  obtainable := by
    have howner : owner.Obtainable := hm owner (LoadedMethod.mem_types_iff.2 (.inl rfl))
    apply LoadedMethod.Obtainable.bound (.generic howner _) (List.forall_mem_singleton.2 ht) hb
    intro s hs
    exact hm s (LoadedMethod.mem_types_iff.2 (.inr (.inr hs)))
  notDefinition := rfl
  closed := hc
  names := hn

end Library

theorem MethodRef.contains_by_signature :
    Library.containsStringRef.denotes
      (Library.containsOf (.defined Library.foreignMethods) "T" (.defined Library.string)) = true ∧
    Library.containsStringRef.denotes
      (Library.containsOf (.defined Library.sequenceMethods) "TSource" (.defined Library.integer)) = false := by
  have hstring : (Library.containsOf (.defined Library.sequenceMethods) "TSource"
      (.defined Library.string)).IsConcrete := by
    apply Library.containsOf_isConcrete _ rfl <;> decide +kernel
  have hinteger : (Library.containsOf (.defined Library.sequenceMethods) "TSource"
      (.defined Library.integer)).IsConcrete := by
    apply Library.containsOf_isConcrete _ rfl <;> decide +kernel
  have hforeign : (Library.containsOf (.defined Library.foreignMethods) "T"
      (.defined Library.string)).IsConcrete := by
    apply Library.containsOf_isConcrete _ rfl <;> decide +kernel
  constructor
  -- an interface of another library declares the same method under another type parameter
  · exact (denotes_iff_same_signature hstring hforeign _ rfl).2 ⟨rfl, rfl, rfl, rfl, rfl⟩
  · rw [← Bool.not_eq_true, denotes_iff_same_signature hstring hinteger Library.containsStringRef rfl]
    rintro ⟨-, -, -, h, -⟩
    obtain ⟨hname, -, -⟩ := LoadedType.shape_eq_iff.1 (List.cons.inj h).1
    exact absurd hname (by decide)

namespace MethodRef

open LoadedMethod LoadedType

section Bound

variable {A : List LoadedType} {t : LoadedType} {p : ParameterRef}

theorem accepts_of_subst {ps : List Parameter} (ho : t.Obtainable)
    (ht : t ∈ ps.map LoadedType.parameter ∨ ∀ q ∈ ps, q ∉ t.occurring)
    (h : (t.subst (ps.zip A)).isParameter = true ∨ p.type.denotes (t.subst (ps.zip A)) = true) :
    t.isParameter = true ∨ p.type.denotes t = true := by
  rcases ht with ht | ht
  · obtain ⟨q, -, rfl⟩ := List.mem_map.1 ht
    exact .inl rfl
  · have hlookup : ∀ q ∈ t.occurring, (ps.zip A).lookup q = none := by
      intro q hq
      exact lookup_zip_of_notMem fun hm => ht q hm hq
    rwa [subst_of_not_occurring ho hlookup] at h

theorem denotes_of_denotes_bound {m n : LoadedMethod} {A : List LoadedType} (hm : m.Obtainable)
    (hp : ∀ t ∈ m.parameters, t ∈ m.arguments ∨ ∀ q, .parameter q ∈ m.arguments → q ∉ t.occurring)
    (hb : m.bind A = .ok n) {r : MethodRef} (h : r.denotes n = true) : r.denotes m = true := by
  obtain ⟨names, hg, -, rfl⟩ := exists_names_of_bind hb
  rw [arguments_of_unbound hg] at hp
  obtain ⟨hname, howner, hstatic, hgeneric, -, hparameters⟩ := denotes_iff.1 h
  refine denotes_iff.2 ⟨hname, howner, hstatic, ?_, ?_, ?_⟩
  · rw [hgeneric, LoadedMethod.isGeneric, LoadedMethod.isGeneric, hg]
  · exact .inr (.inl (by rw [LoadedMethod.isGenericDefinition, hg]))
  · rw [List.forall₂_map_left_iff] at hparameters
    apply ((List.forall₂_and_left _ _).2 ⟨fun t ht => ht, hparameters⟩).imp
    rintro t p ⟨ht, hsubst⟩
    apply accepts_of_subst (hm.types t (mem_types_iff.2 (.inr (.inr ht)))) _ hsubst
    apply (hp t ht).imp_right
    intro hoccurring q hq
    exact hoccurring q (List.mem_map_of_mem hq)

end Bound

end MethodRef

namespace Library

def echo : LoadedMethod :=
  .generic (.defined sequenceMethods) "Echo" true ["T"]
    [.parameter ⟨"System.Linq", "System.Linq.Enumerable.Echo", "T", 0⟩, list.instantiate [.defined string]]

def echoSet : LoadedMethod :=
  ⟨.defined sequenceMethods, "Echo", true, .bound ["T"] [setOfStrings],
    [setOfStrings, list.instantiate [.defined string]]⟩

def echoSetRef : MethodRef where
  owner := viaFacade sequenceMethods []
  name := "Echo"
  isStatic := true
  typeArguments := [viaFacade hashSet [viaFacade string []]]
  parameters := [⟨"value", viaFacade hashSet [viaFacade string []]⟩, ⟨"log", viaFacade list [viaFacade string []]⟩]

end Library

theorem MethodRef.echo_takes_bound_call :
    Library.echo.bind [Library.setOfStrings] = .ok Library.echoSet ∧
    Library.echoSetRef.denotes Library.echoSet = true ∧ Library.echoSetRef.denotes Library.echo = true := by
  have hecho : Library.echo.Obtainable := .generic (by decide +kernel) (by decide +kernel)
  have hparameters : ∀ t ∈ Library.echo.parameters, t ∈ Library.echo.arguments ∨
      ∀ q, .parameter q ∈ Library.echo.arguments → q ∉ t.occurring :=
    List.forall_mem_cons.2 ⟨.inl List.mem_cons_self, List.forall_mem_singleton.2 (.inr fun _ _ => List.not_mem_nil)⟩
  have hbind : Library.echo.bind [Library.setOfStrings] = .ok Library.echoSet := rfl
  have hset : Library.echoSetRef.denotes Library.echoSet = true := by decide +kernel
  exact ⟨hbind, hset, denotes_of_denotes_bound hecho hparameters hbind hset⟩

/-- A type parameter inside another type stands for nothing but itself. -/
example : Library.containsStringRef.denotes
      (Library.containsOf (.defined Library.sequenceMethods) "TSource" (.defined Library.string)) = true ∧
    Library.containsStringRef.denotes (Library.containsIn (.defined Library.sequenceMethods) "TSource") = false := by
  decide +kernel

end CollationLint
