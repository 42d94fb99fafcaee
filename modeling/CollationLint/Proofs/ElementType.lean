import CollationLint.Proofs.Coherence

namespace CollationLint

namespace Assemblies

open LoadedType

variable {as : Assemblies} {D : Definition} {A : List LoadedType}

namespace WellFormed

variable (hw : as.WellFormed)
include hw

theorem held_of_loads (h : as.resolver.Loads (D.instantiate A)) :
    .defined D ∈ as.types ∧ A.length = D.arity := by
  obtain ⟨assembly, name, arguments, hfound⟩ := TypeRef.found_of_loads h
  obtain ⟨s, hs, -, h⟩ := mem_types_of_found hfound
  obtain ⟨d, rfl⟩ := hw.held s hs
  rcases h with ⟨-, h⟩ | ⟨-, h⟩
  · rw [← d.instantiate_parameters] at h
    obtain ⟨rfl, rfl⟩ := Declaration.instantiate_inj h
    exact ⟨hs, by rw [List.length_map, Declaration.length_parameters]⟩
  · obtain ⟨-, hlen, h⟩ := bind_defined_eq_ok_iff.1 h
    obtain ⟨rfl, rfl⟩ := Declaration.instantiate_inj h
    exact ⟨hs, hlen⟩

theorem exists_mem_allInterfaces (hD : .defined D ∈ as.types) {i : LoadedType}
    (hi : (defined D).Implements i) : ∃ j ∈ (defined D).allInterfaces, j.identity = i.identity := by
  have hexposed (x : LoadedType) (hx : (defined D).Implements x) : as.Exposes x :=
    (Exposes.held hD).implemented hx
  exact contains_iff.1 ((contains_allInterfaces_iff hw.coherent hexposed).2 ⟨i, hi, rfl⟩)

section Bound

variable (hD : .defined D ∈ as.types) (hlen : A.length = D.arity) (hA : ∀ a ∈ A, a.isOpen = false)
  (hp : ∀ t ∈ (defined D).baseTypes ++ (defined D).allInterfaces, t.isParameter = false)
include hD hlen hA hp

theorem implements_instantiate_iff {j : LoadedType} :
    (D.instantiate A).Implements j ↔ ∃ i, (defined D).Implements i ∧ i.subst (D.bindings A) = j := by
  have hdefs (e : Definition) : e ∈ (defined D).definitions → e ∈ as.definitions := mem_definitions_of_held hD
  apply (hw.hygienic.mirrors_instantiate hdefs hlen hA).implements_iff
  · exact hw.hygienic.mirrors_of_base hdefs hlen hA fun b hb => hp b (List.mem_append_left _ hb)
  · intro i hi
    apply hw.hygienic.mirrors_of_implements hdefs hlen hA hi
    exact isParameter_of_implements hw.coherent (fun _ => (Exposes.held hD).implemented)
      (fun t ht => hp t (List.mem_append_right _ ht)) hi

theorem contains_allInterfaces_instantiate (hl : as.resolver.Loads (D.instantiate A)) (a : LoadedType) :
    (D.instantiate A).allInterfaces.contains a = true ↔
      ∃ t ∈ (defined D).allInterfaces, (t.subst (D.bindings A) == a) = true := by
  rw [contains_allInterfaces_iff hw.coherent fun _ => (Exposes.loaded hl).implemented]
  have hbuilt {i : LoadedType} (hi : (defined D).Implements i) : i.isBuiltFrom D.parameters = true :=
    (hw.hygienic.isBuiltFrom_of_extends (fun _ => mem_definitions_of_held hD) (transGen_of_implements hi)).1
  constructor
  · rintro ⟨j, hj, hid⟩
    obtain ⟨i, hi, rfl⟩ := (hw.implements_instantiate_iff hD hlen hA hp).1 hj
    obtain ⟨t, ht, hti⟩ := hw.exists_mem_allInterfaces hD hi
    refine ⟨t, ht, beq_iff.2 (Eq.trans ?_ hid)⟩
    exact identity_subst_congr (Declaration.exists_lookup_bindings hlen hA)
      (hbuilt (implements_of_mem_allInterfaces ht)) (hbuilt hi) hti
  · rintro ⟨t, ht, heq⟩
    have hi := implements_of_mem_allInterfaces ht
    exact ⟨_, (hw.implements_instantiate_iff hD hlen hA hp).2 ⟨t, hi, rfl⟩, beq_iff.1 heq⟩

end Bound

end WellFormed

end Assemblies

theorem LoadedType.derivesFrom_interface_iff {t : LoadedType} {d : Definition} {arguments : List LoadedType}
    (hi : (constructed d arguments).isInterface = true) :
    t.derivesFrom (constructed d arguments) = true ↔
      (t == constructed d arguments) = true ∨ t.allInterfaces.contains (constructed d arguments) = true := by
  have hsymm : (constructed d arguments == t) = (t == constructed d arguments) := by
    rw [Bool.eq_iff_iff, beq_iff, beq_iff, eq_comm]
  simp only [derivesFrom, accepts, isRoot, isGenericDefinition, hi, hsymm]
  cases (t == constructed d arguments) <;> simp

theorem WellKnown.IsLoaded.strings_eq {known : WellKnown} (hk : known.IsLoaded)
    (hc : known.string.isOpen = false) : ∃ d, known.strings = .constructed d [known.string] := by
  obtain ⟨settings, resolver, h⟩ := hk
  obtain ⟨_, sequence, _, _, -, -, -, hb, -⟩ := load_eq_ok h
  cases sequence with
  | parameter p => cases hb
  | constructed d arguments => cases hb
  | defined d =>
    obtain ⟨-, -, hb⟩ := LoadedType.bind_defined_eq_ok_iff.1 hb
    refine ⟨d, hb.symm.trans (Declaration.instantiate_of_ne ?_)⟩
    intro hp
    obtain ⟨p, -, hps⟩ := List.mem_map.1 (hp ▸ List.mem_singleton_self known.string)
    rw [← hps] at hc
    cases hc

namespace Linter

variable {linter : Linter} {as : Assemblies}

theorem isSteady_of_wellFormed (hw : as.WellFormed) (hr : linter.resolver = as.resolver)
    (hk : linter.known.IsLoaded) (hi : linter.known.strings.isInterface = true)
    (hc : linter.known.string.isOpen = false) : linter.IsSteady := by
  obtain ⟨q, hq⟩ := hk.strings_eq hc
  have transfer {s t : LoadedType} (hs : as.resolver.Loads s) (ht : as.resolver.Loads t)
      (hid : s.identity = t.identity) (h : s.derivesFrom linter.known.strings = true) :
      t.derivesFrom linter.known.strings = true := by
    rw [hq] at hi h ⊢
    rw [LoadedType.derivesFrom_interface_iff hi] at h ⊢
    rw [LoadedType.contains_allInterfaces_iff hw.coherent fun _ => (Assemblies.Exposes.loaded hs).implemented]
      at h
    rw [LoadedType.contains_allInterfaces_iff hw.coherent fun _ => (Assemblies.Exposes.loaded ht).implemented]
    rcases h with h | ⟨j, hj, hja⟩
    · exact .inl (LoadedType.beq_iff.2 (hid.symm.trans (LoadedType.beq_iff.1 h)))
    · obtain ⟨k, hk, hkj⟩ := hj.exists_of_identity hw.coherent (fun _ hx _ hb => hx.base hb)
        (fun _ hx _ hi => hx.interface hi) (.loaded hs) (.loaded ht) hid
      exact .inr ⟨k, hk, hkj.trans hja⟩
  intro s t hs ht hid
  rw [hr] at hs ht
  rw [Bool.eq_iff_iff]
  exact ⟨transfer hs ht hid, transfer ht hs hid.symm⟩

variable {f : Forest} {i : Nat} {target : MethodRef}

theorem checkCall_contains_iff (hsteady : linter.IsSteady) (hk : linter.known.IsLoaded)
    (history : List Request) (ht : f.target? i = some target)
    (hs : f.inScope linter.known.entryPoints i = true) (hu : target.IsUnary "Contains") {n : Node}
    (hn : f.node? i = some n) {t : LoadedType} (hl : target.owner.load linter.resolver = .ok (some t))
    (d : Diagnostic) :
    (linter.checkCall f i (linter.memoAfter history)).1 = some d ↔
      d = .violation Rule.implicitCollation linter.severity n.location ∧
        t.derivesFrom linter.known.strings = true := by
  have hanswer : (linter.memoAfter history).answer linter.known.strings t =
      t.derivesFrom linter.known.strings :=
    (trusts_memoAfter hsteady history).derivesFrom_fst ⟨_, hl⟩
  have hflag : (linter.known.flagsCall linter.resolver f i (linter.memoAfter history)).1 =
      .ok (t.derivesFrom linter.known.strings) := by
    rw [WellKnown.flagsCall_of_contains _ ht hs (fun h => hk.not_isUnary_contains (.inl h) hu)
      (fun h => hk.not_isUnary_contains (.inr h) hu) hu, hl, ← hanswer]
  rw [linter.checkCall_eq hn, hflag, record_eq_some_iff]
  simp

theorem contains_flagged_iff_bound_interface (linter : Linter) (hw : as.WellFormed)
    (hr : linter.resolver = as.resolver) (hk : linter.known.IsLoaded)
    (hi : linter.known.strings.isInterface = true) (hc : linter.known.string.isOpen = false) (history : List Request)
    (ht : f.target? i = some target) (hs : f.inScope linter.known.entryPoints i = true)
    (hu : target.IsUnary "Contains") {D : Definition} {A : List LoadedType}
    (hA : ∀ a ∈ A, a.isOpen = false)
    (hl : target.owner.load as.resolver = .ok (some (D.instantiate A)))
    (hp : ∀ t ∈ (LoadedType.defined D).baseTypes ++ (LoadedType.defined D).allInterfaces,
      t.isParameter = false) :
    ∃ n, f.node? i = some n ∧ ∀ d, (linter.checkCall f i (linter.memoAfter history)).1 = some d ↔
      d = .violation Rule.implicitCollation linter.severity n.location ∧
      ((D.instantiate A == linter.known.strings) = true ∨
        ∃ t ∈ (LoadedType.defined D).allInterfaces,
          (t.subst (D.bindings A) == linter.known.strings) = true) := by
  have hloads : as.resolver.Loads (D.instantiate A) := ⟨_, hl⟩
  obtain ⟨hD, hlen⟩ := hw.held_of_loads hloads
  obtain ⟨n, hn⟩ := Forest.exists_node_of_kind? (Forest.kind?_of_target? ht)
  have hsteady := isSteady_of_wellFormed hw hr hk hi hc
  obtain ⟨q, hq⟩ := hk.strings_eq hc
  refine ⟨n, hn, fun d => ?_⟩
  rw [checkCall_contains_iff hsteady hk history ht hs hu hn (hr ▸ hl)]
  apply and_congr_right'
  rw [hq] at hi ⊢
  rw [LoadedType.derivesFrom_interface_iff hi, hw.contains_allInterfaces_instantiate hD hlen hA hp hloads]

end Linter

namespace Library

def tablesAssembly : String := "Tables"

def pairs : Definition :=
  let d := (Declaration.bare .ordinaryClass tablesAssembly "" "Pairs").withParameters ["K", "V"]
  d.implementing (sequence.instantiate ((d.parameters.drop 1).map .parameter))

def table : Definition :=
  let d := (Declaration.bare .ordinaryClass tablesAssembly "" "Table").withParameters ["K", "V"]
  d.extending (pairs.instantiate (d.parameters.reverse.map .parameter))

def wrapper : Definition :=
  ((Declaration.bare .ordinaryClass tablesAssembly "" "Wrapper").withParameters ["T"]).extending
    (.parameter ⟨tablesAssembly, "Wrapper`1", "T", 0⟩)

def tables : Assemblies :=
  [holding coreAssembly [object, string],
    holding tablesAssembly [pairs, table, wrapper]].foldl .register .empty

def tableHeads : List Definition :=
  [object, comparable, untypedSequence, sequence, equatable, string, pairs, table, wrapper]

theorem held_tables : ∀ t ∈ tables.types, ∃ d ∈ tableHeads, t = .defined d := by
  have htypes : tables.types = [wrapper, table, pairs, string, object].map .defined := rfl
  simp [htypes, tableHeads]

theorem tableHeads_closed : LoadedType.ClosedUnderParents tableHeads := by
  have hstring : ∀ p ∈ string.parents,
      ∃ e ∈ tableHeads, e.extendsParameter = false ∧ p.head? = some e := by
    intro p hp
    have hp : p ∈ [.defined object, .defined comparable, sequence.instantiate [.defined character],
      equatable.instantiate [.defined ((core .ordinaryClass "String").extending (.defined object))]] := hp
    simp only [List.mem_cons, List.not_mem_nil, or_false] at hp
    rcases hp with rfl | rfl | rfl | rfl
    · exact ⟨object, by simp [tableHeads], rfl, rfl⟩
    · exact ⟨comparable, by simp [tableHeads], rfl, rfl⟩
    · exact ⟨sequence, by simp [tableHeads], rfl, rfl⟩
    · exact ⟨equatable, by simp [tableHeads], rfl, rfl⟩
  have hsingle {d e : Definition} {p : LoadedType} (hd : d.parents = [p]) (he : e ∈ tableHeads)
      (hno : e.extendsParameter = false) (hp : p.head? = some e) :
      ∀ p ∈ d.parents, ∃ e ∈ tableHeads, e.extendsParameter = false ∧ p.head? = some e := by
    intro q hq
    rw [hd] at hq
    rw [List.mem_singleton.1 hq]
    exact ⟨e, he, hno, hp⟩
  intro d hd
  simp only [tableHeads, List.mem_cons, List.not_mem_nil, or_false] at hd
  rcases hd with rfl | rfl | rfl | rfl | rfl | rfl | rfl | rfl | rfl
  · exact fun _ => nofun
  · exact fun _ => nofun
  · exact fun _ => nofun
  · exact fun p hp => .inr (hsingle (e := untypedSequence) rfl (by simp [tableHeads]) rfl rfl p hp)
  · exact fun _ => nofun
  · exact fun p hp => .inr (hstring p hp)
  · exact fun p hp => .inr (hsingle (e := sequence) rfl (by simp [tableHeads]) rfl rfl p hp)
  · exact fun p hp => .inr (hsingle (e := pairs) rfl (by simp [tableHeads]) rfl rfl p hp)
  · exact fun p hp => .inl (by rw [List.mem_singleton.1 hp]; rfl)

theorem tables_wellFormed : tables.WellFormed where
  held t ht := by
    obtain ⟨d, -, hd⟩ := held_tables t ht
    exact ⟨d, hd⟩
  built := by decide +kernel
  irreflexive := LoadedType.irreflexive_of_definitions (by decide +kernel)
  disjoint := by decide +kernel
  coherent := Assemblies.coherent_of_nodup held_tables (by decide +kernel) tableHeads_closed

def tableLinter : Linter := .ofKnown known tables.resolver

def tableOf (key value : Definition) : TypeRef :=
  .named "" table.simpleName tablesAssembly [mention key, mention value]

def wrapped (type : TypeRef) : TypeRef := .named "" wrapper.simpleName tablesAssembly [type]

def stringTable : LoadedType := table.instantiate [.defined string, .defined object]

def containsOn (owner : TypeRef) : MethodRef :=
  ⟨owner, "Contains", false, [], [⟨"item", mention string⟩]⟩

def containsQuery (owner : TypeRef) : Forest := query (containsCall owner)

end Library

theorem Linter.table_with_string_keys_flagged :
    (Library.tableLinter.checkCall (Library.containsQuery (Library.tableOf Library.string Library.object)) 3
      (Library.tableLinter.memoAfter
        [.forest (Library.containsQuery (Library.tableOf Library.object Library.string))])).1 =
      some (.violation Rule.implicitCollation .info Library.site) := by
  let f := Library.containsQuery (Library.tableOf Library.string Library.object)
  have ht : f.target? 3 = some (Library.containsOn (Library.tableOf Library.string Library.object)) := by
    decide +kernel
  have hl : (Library.tableOf Library.string Library.object).load Library.tables.resolver =
      .ok (some (Library.table.instantiate [.defined Library.string, .defined Library.object])) := rfl
  obtain ⟨n, hn, hflag⟩ := Library.tableLinter.contains_flagged_iff_bound_interface
    Library.tables_wellFormed rfl Library.known_isLoaded rfl rfl
    [.forest (Library.containsQuery (Library.tableOf Library.object Library.string))] ht (by decide +kernel)
    ⟨rfl, rfl, rfl⟩ (by decide +kernel) hl (by decide +kernel)
  have hloc : (f.node? 3).map (·.location) = some Library.site := by decide +kernel
  rw [hn, Option.map_some, Option.some.injEq] at hloc
  refine (hflag _).2 ⟨by rw [hloc]; rfl, .inr ?_⟩
  decide +kernel

theorem Linter.wrapped_table_flagged :
    Library.tables.WellFormed ∧ Library.known.IsLoaded ∧ Library.known.strings.isInterface = true ∧
    Library.known.string.isOpen = false ∧
    (Library.containsQuery (Library.wrapped (Library.tableOf Library.string Library.object))).target? 3 =
      some (Library.containsOn (Library.wrapped (Library.tableOf Library.string Library.object))) ∧
    (Library.containsQuery (Library.wrapped (Library.tableOf Library.string Library.object))).inScope
      Library.known.entryPoints 3 = true ∧
    (Library.containsOn (Library.wrapped (Library.tableOf Library.string Library.object))).IsUnary "Contains" ∧
    (Library.wrapped (Library.tableOf Library.string Library.object)).load Library.tables.resolver =
      .ok (some (Library.wrapper.instantiate [Library.stringTable])) ∧
    Library.stringTable.isOpen = false ∧
    (Library.tableLinter.checkCall (Library.containsQuery
      (Library.wrapped (Library.tableOf Library.string Library.object))) 3 .empty).1.map (·.isFault) =
        some false ∧
    ¬((Library.wrapper.instantiate [Library.stringTable] == Library.known.strings) = true ∨
      ∃ t ∈ (LoadedType.defined Library.wrapper).allInterfaces,
        (t.subst (Library.wrapper.bindings [Library.stringTable]) == Library.known.strings) = true) := by
  refine ⟨Library.tables_wellFormed, Library.known_isLoaded, rfl, rfl, by decide +kernel, by decide +kernel,
    ⟨rfl, rfl, rfl⟩, rfl, by decide +kernel, by decide +kernel, by decide +kernel⟩

end CollationLint
