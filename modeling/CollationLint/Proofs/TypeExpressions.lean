import CollationLint.Loaded.Method
import CollationLint.Proofs.Obtainable

namespace CollationLint

namespace LoadedType

mutual

/-- The parameters that stand in `t`, not counting those that a definition declares itself. -/
def occurring : LoadedType → List Parameter
  | .parameter p => [p]
  | .defined _ => []
  | .constructed _ arguments => occurringAll arguments

def occurringAll : List LoadedType → List Parameter
  | [] => []
  | t :: ts => t.occurring ++ occurringAll ts

end

theorem occurring_subset {d : Definition} {arguments : List LoadedType} {a : LoadedType} (ha : a ∈ arguments) :
    ∀ p ∈ a.occurring, p ∈ (constructed d arguments).occurring := by
  intro p hp
  rw [occurring]
  induction arguments with
  | nil => cases ha
  | cons b arguments ih =>
    rw [occurringAll, List.mem_append]
    rcases List.mem_cons.1 ha with rfl | ha
    · exact .inl hp
    · exact .inr (ih ha)

theorem Obtainable.subst_constructed_eq_self {σ : Bindings} {d : Definition} {arguments : List LoadedType}
    (h : Obtainable (.constructed d arguments)) (ha : ∀ a ∈ arguments, a.subst σ = a) :
    (constructed d arguments).subst σ = .constructed d arguments := by
  obtain ⟨-, -, -, hne, -⟩ := obtainable_constructed_iff.1 h
  have hmap : arguments.map (LoadedType.subst σ) = arguments := (List.map_congr_left ha).trans (List.map_id _)
  rw [subst_constructed, hmap, Declaration.instantiate_of_ne hne]

theorem subst_of_not_occurring {σ : Bindings} {t : LoadedType} (ht : t.Obtainable)
    (h : ∀ p ∈ t.occurring, σ.lookup p = none) : t.subst σ = t := by
  induction t using argumentRec with
  | parameter p => rw [subst, h p (by simp [occurring]), Option.getD_none]
  | defined d => rfl
  | constructed d arguments ih =>
    apply ht.subst_constructed_eq_self
    intro a hm
    exact ih a hm (ht.argument hm) fun p hp => h p (occurring_subset hm p hp)

theorem subst_instantiate {σ : Bindings} {d : Definition} (hd : ∀ q ∈ d.parameters, σ.lookup q = none)
    (arguments : List LoadedType) :
    (d.instantiate arguments).subst σ = d.instantiate (arguments.map (subst σ)) := by
  by_cases hc : arguments = d.parameters.map .parameter
  · have hmap : (d.parameters.map parameter).map (subst σ) = d.parameters.map parameter := by
      rw [List.map_map]
      apply List.map_congr_left
      intro q hq
      rw [Function.comp_apply, subst, hd q hq, Option.getD_none]
    rw [hc, hmap, Declaration.instantiate_parameters, subst]
  · rw [Declaration.instantiate_of_ne hc, subst_constructed]

end LoadedType

theorem lookup_zip_of_notMem {ps : List Parameter} {arguments : List LoadedType} {p : Parameter} (hp : p ∉ ps) :
    (ps.zip arguments).lookup p = none := by
  rw [List.lookup_eq_none_iff]
  intro x hx
  rw [bne_iff_ne]
  rintro rfl
  exact hp (List.of_mem_zip hx).1

inductive TypeExpression where
  | parameter (position : Nat)
  | fixed (t : LoadedType)
  | make (d : Definition) (arguments : List TypeExpression)

namespace TypeExpression

mutual

def value (A : List LoadedType) : TypeExpression → Option LoadedType
  | .parameter i => A[i]?
  | .fixed t => some t
  | .make d arguments => (valueAll A arguments).bind fun ts => ((LoadedType.defined d).bind ts).toOption

def valueAll (A : List LoadedType) : List TypeExpression → Option (List LoadedType)
  | [] => some []
  | e :: es => (e.value A).bind fun t => (valueAll A es).map (t :: ·)

end

def Yields (A : List LoadedType) (e : TypeExpression) (t : LoadedType) : Prop := e.value A = some t

/-- Expressions that keep clear of the parameters `ps` but for the open places. -/
inductive IsOver (ps : List Parameter) : TypeExpression → Prop
  | parameter (i : Nat) : IsOver ps (.parameter i)
  | fixed {t : LoadedType} (ht : t.Obtainable) (h : ∀ p ∈ ps, p ∉ t.occurring) : IsOver ps (.fixed t)
  | make {d : Definition} {arguments : List TypeExpression} (hd : ∀ p ∈ ps, p ∉ d.parameters)
      (ha : ∀ a ∈ arguments, IsOver ps a) : IsOver ps (.make d arguments)

variable {A : List LoadedType} {ps : List Parameter}

theorem valueAll_eq_some_iff {es : List TypeExpression} {ts : List LoadedType} :
    valueAll A es = some ts ↔ List.Forall₂ (Yields A) es ts := by
  induction es generalizing ts with
  | nil =>
    rw [valueAll, Option.some.injEq, eq_comm]
    exact List.forall₂_nil_left_iff.symm
  | cons e es ih =>
    rw [valueAll, Option.bind_eq_some_iff, List.forall₂_cons_left_iff]
    simp only [Option.map_eq_some_iff, ih]
    constructor
    · rintro ⟨t, ht, ts, hts, rfl⟩
      exact ⟨t, ts, ht, hts, rfl⟩
    · rintro ⟨t, ts, ht, hts, rfl⟩
      exact ⟨t, ht, ts, hts, rfl⟩

theorem yields_make_iff {d : Definition} {arguments : List TypeExpression} {t : LoadedType} :
    (make d arguments).Yields A t ↔ ∃ ts, List.Forall₂ (Yields A) arguments ts ∧
      d.isGeneric = true ∧ ts.length = d.arity ∧ d.instantiate ts = t := by
  have hbind (ts : List LoadedType) : ((LoadedType.defined d).bind ts).toOption = some t ↔
      (LoadedType.defined d).bind ts = .ok t := by
    cases (LoadedType.defined d).bind ts <;> simp [Except.toOption]
  simp only [Yields, value, Option.bind_eq_some_iff, valueAll_eq_some_iff, hbind,
    LoadedType.bind_defined_eq_ok_iff]

theorem yields_map {B : List LoadedType} {f : LoadedType → LoadedType} {es : List TypeExpression}
    {ts : List LoadedType} (h : ∀ e ∈ es, ∀ t, e.Yields B t → e.Yields A (f t))
    (hts : List.Forall₂ (Yields B) es ts) : List.Forall₂ (Yields A) es (ts.map f) := by
  rw [List.forall₂_map_right_iff]
  apply List.Forall₂.imp _ ((List.forall₂_and_left _ _).2 ⟨h, hts⟩)
  rintro e t ⟨he, ht⟩
  exact he t ht

theorem IsOver.yields_subst (hnd : ps.Nodup) (hlen : A.length = ps.length) {e : TypeExpression}
    (h : e.IsOver ps) {t : LoadedType} (ht : e.Yields (ps.map .parameter) t) :
    e.Yields A (t.subst (ps.zip A)) := by
  induction h generalizing t with
  | parameter i =>
    rw [Yields, value, List.getElem?_map, Option.map_eq_some_iff] at ht
    obtain ⟨p, hp, rfl⟩ := ht
    have hi : i < A.length := by
      rw [hlen]
      exact (List.getElem?_eq_some_iff.1 hp).1
    rw [Yields, value, LoadedType.subst, lookup_zip_of_nodup hnd hp, List.getElem?_eq_getElem hi,
      Option.getD_some]
  | fixed ho hp =>
    cases ht
    rw [Yields, value, LoadedType.subst_of_not_occurring ho]
    intro p hocc
    exact lookup_zip_of_notMem fun hm => hp p hm hocc
  | make hd ha ih =>
    obtain ⟨ts, hts, hg, hts', rfl⟩ := yields_make_iff.1 ht
    rw [yields_make_iff]
    refine ⟨ts.map (LoadedType.subst (ps.zip A)), ?_, hg, by rw [List.length_map, hts'], ?_⟩
    · apply yields_map _ hts
      intro a hm t ht
      exact ih a hm ht
    · rw [LoadedType.subst_instantiate]
      intro q hq
      exact lookup_zip_of_notMem fun hm => hd q hm hq

theorem yields_map_subst (hnd : ps.Nodup) (hlen : A.length = ps.length) {es : List TypeExpression}
    (h : ∀ e ∈ es, e.IsOver ps) {ts : List LoadedType}
    (hts : List.Forall₂ (Yields (ps.map .parameter)) es ts) :
    List.Forall₂ (Yields A) es (ts.map (LoadedType.subst (ps.zip A))) := by
  apply yields_map _ hts
  intro e he t ht
  exact (h e he).yields_subst hnd hlen ht

end TypeExpression

theorem LoadedMethod.length_typeParametersOf (owner : LoadedType) (name : String) (names : List String) :
    (typeParametersOf owner name names).length = names.length := List.length_mapIdx

theorem LoadedMethod.bind_generic (owner : LoadedType) (name : String) (isStatic : Bool) {names : List String}
    (hne : names ≠ []) (parameters : List LoadedType) {A : List LoadedType} (hlen : A.length = names.length) :
    ∃ m, (generic owner name isStatic names parameters).bind A = .ok m ∧
      m.parameters = parameters.map (LoadedType.subst ((typeParametersOf owner name names).zip A)) := by
  have hg : (generic owner name isStatic names parameters).genericity = .unbound names := by
    rw [generic, if_neg (by simpa using hne)]
  rw [bind, hg]
  simp only [hlen, ne_eq, not_true_eq_false, ↓reduceIte]
  exact ⟨_, rfl, rfl⟩

namespace Declaration

open TypeExpression (Yields IsOver)

variable {D : Definition} {A : List LoadedType}

theorem yields_interfaces_instantiate (hlen : A.length = D.arity) {es : List TypeExpression}
    (h : ∀ e ∈ es, e.IsOver D.parameters)
    (hes : List.Forall₂ (Yields (D.parameters.map .parameter)) es D.interfaces) :
    List.Forall₂ (Yields A) es (D.instantiate A).interfaces := by
  by_cases hc : A = D.parameters.map .parameter
  · rw [hc, instantiate_parameters]
    exact hes
  · rw [instantiate_of_ne hc]
    exact TypeExpression.yields_map_subst (nodup_mapIdx_parameter _ _ _)
      (hlen.trans D.length_parameters.symm) h hes

theorem yields_base_instantiate (hlen : A.length = D.arity) {e : Option TypeExpression}
    (h : ∀ x ∈ e, x.IsOver D.parameters)
    (he : Option.Rel (Yields (D.parameters.map .parameter)) e D.base) :
    Option.Rel (Yields A) e (D.instantiate A).base? := by
  by_cases hc : A = D.parameters.map .parameter
  · rw [hc, instantiate_parameters]
    exact he
  · have hlen' : A.length = D.parameters.length := hlen.trans D.length_parameters.symm
    rw [instantiate_of_ne hc, LoadedType.base?]
    generalize D.base = b at he
    cases he with
    | none => exact .none
    | some hx => exact .some ((h _ rfl).yields_subst (nodup_mapIdx_parameter _ _ _) hlen' hx)

end Declaration

open TypeExpression (Yields IsOver) in
theorem TypeExpression.yields_bound :
    (∀ (owner : LoadedType) (name : String) (isStatic : Bool) (names : List String) (es : List TypeExpression)
        (ts A : List LoadedType), names ≠ [] →
      (∀ e ∈ es, e.IsOver (LoadedMethod.typeParametersOf owner name names)) →
      List.Forall₂ (Yields ((LoadedMethod.typeParametersOf owner name names).map .parameter)) es ts →
      A.length = names.length →
      ∃ m, (LoadedMethod.generic owner name isStatic names ts).bind A = .ok m ∧
        List.Forall₂ (Yields A) es m.parameters) ∧
    ∀ (D : Definition) (base : Option TypeExpression) (interfaces : List TypeExpression) (A : List LoadedType),
      D.isGeneric = true →
      (∀ e ∈ base, e.IsOver D.parameters) → (∀ e ∈ interfaces, e.IsOver D.parameters) →
      Option.Rel (Yields (D.parameters.map .parameter)) base D.base →
      List.Forall₂ (Yields (D.parameters.map .parameter)) interfaces D.interfaces →
      A.length = D.arity →
      ∃ t, (LoadedType.defined D).bind A = .ok t ∧ Option.Rel (Yields A) base t.base? ∧
        List.Forall₂ (Yields A) interfaces t.interfaces := by
  constructor
  · intro owner name isStatic names es ts A hne hover hes hlen
    obtain ⟨m, hm, hparameters⟩ := LoadedMethod.bind_generic owner name isStatic hne ts hlen
    refine ⟨m, hm, ?_⟩
    rw [hparameters]
    have hlen' := hlen.trans (LoadedMethod.length_typeParametersOf owner name names).symm
    exact yields_map_subst (nodup_mapIdx_parameter _ _ _) hlen' hover hes
  · intro D base interfaces A hg hbase hinterfaces hb hi hlen
    exact ⟨D.instantiate A, LoadedType.bind_defined_eq_ok_iff.2 ⟨hg, hlen, rfl⟩,
      Declaration.yields_base_instantiate hlen hbase hb,
      Declaration.yields_interfaces_instantiate hlen hinterfaces hi⟩

namespace Library

def containsExpressions : List TypeExpression :=
  [.make sequence [.make list [.parameter 0]], .parameter 0]

def containsParameters : List Parameter :=
  LoadedMethod.typeParametersOf (.defined sequenceMethods) "Contains" ["TSource"]

theorem containsExpressions_isOver : ∀ e ∈ containsExpressions, e.IsOver containsParameters := by
  have hlist : (TypeExpression.make list [.parameter 0]).IsOver containsParameters :=
    .make (by decide +kernel) (List.forall_mem_singleton.2 (.parameter 0))
  have hsequence : (TypeExpression.make sequence [.make list [.parameter 0]]).IsOver containsParameters :=
    .make (by decide +kernel) (List.forall_mem_singleton.2 hlist)
  exact List.forall_mem_cons.2 ⟨hsequence, List.forall_mem_singleton.2 (.parameter 0)⟩

def listExpressions : List TypeExpression :=
  [.make listInterface [.parameter 0], .make readOnlyCollection [.parameter 0]]

theorem listExpressions_isOver : ∀ e ∈ listExpressions, e.IsOver list.parameters := by
  have hmake {d : Definition} (hd : ∀ p ∈ list.parameters, p ∉ d.parameters) :
      (TypeExpression.make d [.parameter 0]).IsOver list.parameters :=
    .make hd (List.forall_mem_singleton.2 (.parameter 0))
  have hlist := hmake (d := listInterface) (by decide +kernel)
  have hcollection := hmake (d := readOnlyCollection) (by decide +kernel)
  exact List.forall_mem_cons.2 ⟨hlist, List.forall_mem_singleton.2 hcollection⟩

theorem object_isOver (ps : List Parameter) : (TypeExpression.fixed (.defined object)).IsOver ps :=
  .fixed (by decide +kernel) fun _ _ => List.not_mem_nil

end Library

theorem TypeExpression.list_element_bound :
    (∃ m, (LoadedMethod.generic (.defined Library.sequenceMethods) "Contains" true ["TSource"]
        [.constructed Library.sequence [.constructed Library.list (Library.containsParameters.map .parameter)],
          .parameter ⟨"System.Linq", "System.Linq.Enumerable.Contains", "TSource", 0⟩]).bind
        (Library.list.parameters.map .parameter) = .ok m ∧
      m.parameters = [.constructed Library.sequence [.defined Library.list],
        .parameter ⟨"System.Private.CoreLib", "System.Collections.Generic.List`1", "T", 0⟩]) ∧
    ∃ t, (LoadedType.defined Library.list).bind [Library.setOfStrings] = .ok t ∧
      t.base? = some (.defined Library.object) ∧
      t.interfaces = [.constructed Library.listInterface [Library.setOfStrings],
        .constructed Library.readOnlyCollection [Library.setOfStrings]] := by
  constructor
  · obtain ⟨m, hm, hyields⟩ := yields_bound.1 (.defined Library.sequenceMethods) "Contains" true ["TSource"]
      Library.containsExpressions _ (Library.list.parameters.map .parameter) (by decide)
      Library.containsExpressions_isOver (.cons rfl (.cons rfl .nil)) rfl
    have hvalue := valueAll_eq_some_iff.2 hyields
    exact ⟨m, hm, (Option.some.inj hvalue).symm⟩
  · have hobject : ∀ e ∈ some (TypeExpression.fixed (.defined Library.object)),
        e.IsOver Library.list.parameters := by
      rintro e ⟨⟩
      exact Library.object_isOver _
    obtain ⟨t, ht, hbase, hyields⟩ := yields_bound.2 Library.list (some (.fixed (.defined Library.object)))
      Library.listExpressions [Library.setOfStrings] rfl hobject Library.listExpressions_isOver (.some rfl)
      (.cons rfl (.cons rfl .nil)) rfl
    have hvalue := valueAll_eq_some_iff.2 hyields
    refine ⟨t, ht, ?_, (Option.some.inj hvalue).symm⟩
    generalize t.base? = b at hbase
    cases hbase with
    | some hx =>
      cases hx
      rfl

namespace LoadedType

variable {this I : Definition} {A : List LoadedType}

theorem identity_instantiate_eq_iff (hg : this.isGeneric = true) (hlen : A.length = this.arity) :
    (this.instantiate A).identity = (defined this).identity ↔ A = this.parameters.map .parameter := by
  constructor
  · intro hid
    by_contra hne
    rw [Declaration.instantiate_of_ne hne, identity_constructed, identity, Identity.mk.injEq] at hid
    have hnil : A = [] := List.map_eq_nil_iff.1 hid.2.2.2.2
    rw [hnil] at hlen
    exact Declaration.isGeneric_iff.1 hg hlen.symm
  · rintro rfl
    rw [Declaration.instantiate_parameters]

theorem instantiate_singleton (hI : I.arity = 1) {t : LoadedType} (ht : t.isParameter = false) :
    I.instantiate [t] = .constructed I [t] := by
  apply Declaration.instantiate_of_isGeneric (Declaration.isGeneric_iff.2 (by omega))
  exact List.forall_mem_singleton.2 ht

theorem interfaces_instantiate_of_subst_eq {D : Definition} (h : ∀ i ∈ D.interfaces, i.subst (D.bindings A) = i) :
    (D.instantiate A).interfaces = D.interfaces := by
  by_cases hc : A = D.parameters.map .parameter
  · rw [hc, Declaration.instantiate_parameters]
    rfl
  · rw [Declaration.instantiate_of_ne hc]
    exact (List.map_congr_left h).trans (List.map_id _)

/-- A definition put together with its own parameters is the definition itself, where no binding reaches:
an interface that it declares of itself stays open, whatever the arguments. -/
theorem self_interface_rebound_iff (hg : this.isGeneric = true) (hI : I.arity = 1)
    (base : Option LoadedType) (hlen : A.length = this.arity) :
    ∃ self J t u v, (defined this).bind (this.parameters.map .parameter) = .ok self ∧
      (defined I).bind [self] = .ok J ∧
      (defined { this with base := base, interfaces := [J] }).bind A = .ok t ∧
      (defined this).bind A = .ok u ∧ (defined I).bind [u] = .ok v ∧
      t.interfaces = [J] ∧ J.isOpen = true ∧ ((J == v) = true ↔ A = this.parameters.map .parameter) := by
  have hgI : I.isGeneric = true := Declaration.isGeneric_iff.2 (by omega)
  have hJ : I.instantiate [defined this] = .constructed I [defined this] := instantiate_singleton hI rfl
  let D : Definition := { this with base := base, interfaces := [.constructed I [defined this]] }
  refine ⟨.defined this, .constructed I [defined this], D.instantiate A, this.instantiate A,
    I.instantiate [this.instantiate A], ?_, ?_, ?_, ?_, ?_, ?_, ?_, ?_⟩
  · rw [bind_defined_eq_ok_iff, List.length_map]
    exact ⟨hg, this.length_parameters, this.instantiate_parameters⟩
  · exact bind_defined_eq_ok_iff.2 ⟨hgI, hI.symm, hJ⟩
  · exact bind_defined_eq_ok_iff.2 ⟨hg, hlen, rfl⟩
  · exact bind_defined_eq_ok_iff.2 ⟨hg, hlen, rfl⟩
  · exact bind_defined_eq_ok_iff.2 ⟨hgI, hI.symm, rfl⟩
  · apply interfaces_instantiate_of_subst_eq
    intro i hi
    rw [List.mem_singleton.1 hi, subst_constructed]
    exact hJ
  · rw [isOpen, anyOpen, isOpen, hg, Bool.true_or]
  · rw [beq_iff, instantiate_singleton hI (this.isParameter_instantiate A), identity_constructed,
      identity_constructed, ← identity_instantiate_eq_iff hg hlen]
    simp [eq_comm]

end LoadedType

namespace Library

def node : Definition := .withParameters ["T"] (.bare .ordinaryClass "Nodes" "" "Node")

/-- `Node<T> : IEquatable<Node<T>>`. -/
def equatableNode : Definition := node.implementing (equatable.instantiate [.defined node])

end Library

theorem LoadedType.node_of_lists_interface :
    Library.node.isGeneric = true ∧ Library.equatable.arity = 1 ∧
    ∃ self J t u v, (defined Library.node).bind (Library.node.parameters.map .parameter) = .ok self ∧
      (defined Library.equatable).bind [self] = .ok J ∧
      (defined { Library.node with base := some (.defined Library.object), interfaces := [J] }).bind
        [Library.list.instantiate (Library.node.parameters.map .parameter)] = .ok t ∧
      (defined Library.node).bind [Library.list.instantiate (Library.node.parameters.map .parameter)] = .ok u ∧
      (defined Library.equatable).bind [u] = .ok v ∧ t.interfaces = [J] ∧ (J == v) = false := by
  have hg : Library.node.isGeneric = true := rfl
  obtain ⟨self, J, t, u, v, hself, hJ, ht, hu, hv, hinterfaces, -, hiff⟩ := self_interface_rebound_iff hg
    (I := Library.equatable) rfl (some (.defined Library.object))
    (A := [Library.list.instantiate (Library.node.parameters.map .parameter)]) rfl
  refine ⟨hg, rfl, self, J, t, u, v, hself, hJ, ht, hu, hv, hinterfaces, ?_⟩
  rw [← Bool.not_eq_true, hiff]
  intro heq
  exact absurd (congrArg (List.map isParameter) heq) (by decide +kernel)

theorem LoadedType.node_of_string_stays_open :
    (defined Library.node).bind (Library.node.parameters.map .parameter) = .ok (.defined Library.node) ∧
    (defined Library.equatable).bind [.defined Library.node] =
      .ok (Library.equatable.instantiate [.defined Library.node]) ∧
    ∃ t u v, (defined Library.equatableNode).bind [.defined Library.string] = .ok t ∧
      (defined Library.node).bind [.defined Library.string] = .ok u ∧
      (defined Library.equatable).bind [u] = .ok v ∧ (t.interfaces == [v]) = false ∧
      v.isOpen = false ∧ t.interfaces.map isOpen = [true] := by
  refine ⟨rfl, rfl, _, _, _, rfl, rfl, rfl, ?_, ?_, ?_⟩ <;> decide +kernel

end CollationLint
