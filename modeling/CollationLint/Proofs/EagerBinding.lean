import CollationLint.Proofs.TypeExpressions

namespace CollationLint

structure ExtendedType where
  type : LoadedType
  base : Option LoadedType
  interfaces : List LoadedType

namespace LoadedType

def withParents (t : LoadedType) : ExtendedType := ⟨t, t.base?, t.interfaces⟩

mutual

def substEagerly (σ : Bindings) : LoadedType → Except BindingError LoadedType
  | .parameter p => .ok ((σ.lookup p).getD (.parameter p))
  | .defined d => .ok (.defined d)
  | .constructed d arguments =>
    if anyOpen arguments then do
      let bound ← substAllEagerly σ arguments
      let t ← bindDeclaration d bound
      return t.type
    else .ok (.constructed d arguments)

def substAllEagerly (σ : Bindings) : List LoadedType → Except BindingError (List LoadedType)
  | [] => .ok []
  | t :: ts => do
    let u ← substEagerly σ t
    let us ← substAllEagerly σ ts
    return u :: us

def substBaseEagerly (σ : Bindings) : Option LoadedType → Except BindingError (Option LoadedType)
  | none => .ok none
  | some t => do
    let u ← substEagerly σ t
    return some u

/-- Binds a definition and whatever it extends. The arguments may be as large as they like: what is taken
apart is the definition. -/
def bindDeclaration : Declaration LoadedType → List LoadedType → Except BindingError ExtendedType
  | d@⟨_, _, _, _, _, base, interfaces⟩, arguments =>
    if d.parameterNames.isEmpty then .error (.notGeneric d.fullName)
    else if d.arity ≠ arguments.length then .error (.wrongArity d.fullName d.arity arguments.length)
    else if arguments == d.parameters.map .parameter then .ok ⟨.defined d, base, interfaces⟩
    else do
      let base ← substBaseEagerly (d.bindings arguments) base
      let interfaces ← substAllEagerly (d.bindings arguments) interfaces
      return ⟨.constructed d arguments, base, interfaces⟩

end

def bindEagerly (t : LoadedType) (arguments : List LoadedType) : Except BindingError ExtendedType :=
  match t with
  | .defined d => bindDeclaration d arguments
  | _ => .error (.notGeneric t.fullName)

variable {t : LoadedType} {d : Definition} {A B : List LoadedType} {σ : Bindings}

theorem Obtainable.subst_of_isOpen (h : Obtainable t) (hc : t.isOpen = false) (σ : Bindings) :
    t.subst σ = t := by
  induction t using argumentRec with
  | parameter p => cases hc
  | defined d => rfl
  | constructed d arguments ih =>
    rw [isOpen_constructed] at hc
    apply h.subst_constructed_eq_self
    intro a ha
    exact ih a ha (h.argument ha) (hc a ha)

theorem substAllEagerly_eq {ts : List LoadedType} (h : ∀ t ∈ ts, t.substEagerly σ = .ok (t.subst σ)) :
    substAllEagerly σ ts = .ok (ts.map (subst σ)) := by
  induction ts with
  | nil => rfl
  | cons t ts ih =>
    rw [substAllEagerly, h t List.mem_cons_self, ih fun s hs => h s (List.mem_cons_of_mem t hs)]
    rfl

theorem substBaseEagerly_eq {base : Option LoadedType} (h : ∀ t ∈ base, t.substEagerly σ = .ok (t.subst σ)) :
    substBaseEagerly σ base = .ok (base.map (subst σ)) := by
  cases base with
  | none => rfl
  | some t =>
    rw [substBaseEagerly, h t rfl]
    rfl

theorem bindDeclaration_eq (h : ∀ p ∈ d.parents, ∀ σ, p.substEagerly σ = .ok (p.subst σ)) :
    bindDeclaration d A = ((defined d).bind A).map withParents := by
  obtain ⟨assembly, space, simpleName, role, names, base, interfaces⟩ := d
  have hbase : ∀ σ, ∀ t ∈ base, t.substEagerly σ = .ok (t.subst σ) := by
    intro σ t ht
    exact h t (List.mem_append_left _ (by simpa using ht)) σ
  have hinterfaces : ∀ σ, ∀ t ∈ interfaces, t.substEagerly σ = .ok (t.subst σ) := by
    intro σ t ht
    exact h t (List.mem_append_right _ ht) σ
  rw [bindDeclaration, LoadedType.bind]
  split
  · rfl
  · split
    · rfl
    · rw [Declaration.instantiate]
      split
      · rfl
      · rw [substBaseEagerly_eq (hbase _), substAllEagerly_eq (hinterfaces _)]
        rfl

theorem Obtainable.substEagerly_eq (h : Obtainable t) (σ : Bindings) : t.substEagerly σ = .ok (t.subst σ) := by
  induction t using rankRec generalizing σ with
  | step t ih =>
    cases t with
    | parameter p => rfl
    | defined d => rfl
    | constructed d arguments =>
      rw [substEagerly]
      cases ho : anyOpen arguments with
      | false =>
        rw [h.subst_of_isOpen ho]
        rfl
      | true =>
        obtain ⟨hd, hg, hlen, -, ha⟩ := obtainable_constructed_iff.1 h
        -- the arguments and the parents of the definition are taken apart next, and both are of lower rank,
        -- while what is bound to the parameters may grow
        have hrank : (constructed d arguments).rank = declarationRank d + rankAll arguments := by rw [rank]
        have hargs : ∀ a ∈ arguments, a.substEagerly σ = .ok (a.subst σ) := by
          intro a hm
          exact ih a (rank_lt_of_mem_arguments hm) (ha a hm) σ
        have hparents : ∀ p ∈ d.parents, ∀ σ, p.substEagerly σ = .ok (p.subst σ) := by
          intro p hp σ
          have := rank_lt_of_mem_parents hp
          exact ih p (by omega) (obtainable_defined_iff.1 hd p hp) σ
        have hbound : bindDeclaration d (arguments.map (LoadedType.subst σ)) =
            .ok (d.instantiate (arguments.map (LoadedType.subst σ))).withParents := by
          rw [bindDeclaration_eq hparents,
            bind_defined_eq_ok_iff.2 ⟨hg, by rw [List.length_map, hlen], rfl⟩]
          rfl
        rw [if_pos rfl, substAllEagerly_eq hargs, subst_constructed]
        change (do let t ← bindDeclaration d (arguments.map (LoadedType.subst σ)); return t.type) = _
        rw [hbound]
        rfl

theorem Obtainable.bindEagerly_eq (h : Obtainable t) (A : List LoadedType) :
    t.bindEagerly A = (t.bind A).map withParents := by
  cases t with
  | parameter p => rfl
  | defined d =>
    apply bindDeclaration_eq
    intro p hp
    exact (obtainable_defined_iff.1 h p hp).substEagerly_eq
  | constructed d arguments => rfl

end LoadedType

structure SettledBy {α : Type} (result : Except BindingError α) (name : String) (isDefinition : Bool)
    (expected found : Nat) : Prop where
  ok_iff : (∃ a, result = .ok a) ↔ isDefinition = true ∧ expected = found
  notGeneric : isDefinition = false → result = .error (.notGeneric name)
  wrongArity : isDefinition = true → expected ≠ found → result = .error (.wrongArity name expected found)

namespace SettledBy

variable {α : Type} {name : String} {expected found : Nat}

theorem of_notGeneric : SettledBy (α := α) (.error (.notGeneric name)) name false expected found where
  ok_iff := by simp
  notGeneric _ := rfl
  wrongArity := nofun

theorem of_wrongArity (h : expected ≠ found) :
    SettledBy (α := α) (.error (.wrongArity name expected found)) name true expected found where
  ok_iff := by simp [h]
  notGeneric := nofun
  wrongArity _ _ := rfl

theorem of_ok (a : α) (h : expected = found) : SettledBy (.ok a) name true expected found where
  ok_iff := by simp [h]
  notGeneric := nofun
  wrongArity _ hne := absurd h hne

end SettledBy

namespace LoadedType

variable {t : LoadedType} {d : Definition} {A B : List LoadedType}

theorem bind_settledBy (t : LoadedType) (A : List LoadedType) :
    SettledBy (t.bind A) t.fullName t.isGenericDefinition t.parameters.length A.length := by
  cases t with
  | parameter p => exact .of_notGeneric
  | constructed d arguments => exact .of_notGeneric
  | defined d =>
    rw [bind, isGenericDefinition, parameters, d.length_parameters]
    cases hg : d.isGeneric with
    | false =>
      rw [if_pos (by simpa [Declaration.isGeneric] using hg)]
      exact .of_notGeneric
    | true =>
      rw [if_neg (by simpa [Declaration.isGeneric] using hg)]
      split
      · next hlen => exact .of_wrongArity hlen
      · next hlen => exact .of_ok _ (not_not.1 hlen)

theorem identity_instantiate_inj (hg : d.isGeneric = true) (hA : A.length = d.arity) (hB : B.length = d.arity) :
    (d.instantiate A).identity = (d.instantiate B).identity ↔ A.map identity = B.map identity := by
  refine ⟨fun hid => ?_, identity_instantiate_congr⟩
  by_cases hAp : A = d.parameters.map .parameter
  · rw [hAp, Declaration.instantiate_parameters] at hid
    rw [hAp, (identity_instantiate_eq_iff hg hB).1 hid.symm]
  · have hBp : B ≠ d.parameters.map .parameter := by
      intro hBp
      rw [hBp, Declaration.instantiate_parameters] at hid
      exact hAp ((identity_instantiate_eq_iff hg hA).1 hid)
    rw [Declaration.instantiate_of_ne hAp, Declaration.instantiate_of_ne hBp, identity_constructed,
      identity_constructed, Identity.mk.injEq] at hid
    exact hid.2.2.2.2

theorem map_identity_eq_iff :
    A.map identity = B.map identity ↔ List.Forall₂ (fun a b => (a == b) = true) A B := by
  simp only [beq_iff, ← List.forall₂_eq_eq_eq, List.forall₂_map_left_iff, List.forall₂_map_right_iff]

theorem beq_bound_iff {u v : LoadedType} (hu : t.bind A = .ok u) (hv : t.bind B = .ok v) :
    (u == v) = true ↔ List.Forall₂ (fun a b => (a == b) = true) A B := by
  obtain ⟨d, rfl, hg, hA, rfl⟩ := exists_definition_of_bind hu
  obtain ⟨-, hB, rfl⟩ := bind_defined_eq_ok_iff.1 hv
  rw [beq_iff, identity_instantiate_inj hg hA hB, map_identity_eq_iff]

end LoadedType

namespace LoadedMethod

def bindEagerly (m : LoadedMethod) (arguments : List LoadedType) : Except BindingError LoadedMethod :=
  match m.genericity with
  | .unbound names =>
    if names.length ≠ arguments.length then
      .error (.wrongArity m.display names.length arguments.length)
    else do
      let σ := (typeParametersOf m.owner m.name names).zip arguments
      let parameters ← LoadedType.substAllEagerly σ m.parameters
      return { m with genericity := .bound names arguments, parameters := parameters }
  | _ => .error (.notGeneric m.display)

variable {m : LoadedMethod}

theorem bindEagerly_eq (h : ∀ p ∈ m.parameters, p.Obtainable) (A : List LoadedType) :
    m.bindEagerly A = m.bind A := by
  rw [bindEagerly, bind]
  cases m.genericity with
  | plain => rfl
  | bound names arguments => rfl
  | unbound names =>
    have hparameters (σ : Bindings) :
        LoadedType.substAllEagerly σ m.parameters = .ok (m.parameters.map (LoadedType.subst σ)) :=
      LoadedType.substAllEagerly_eq fun p hp => (h p hp).substEagerly_eq σ
    simp only [hparameters]
    rfl

theorem bind_settledBy (m : LoadedMethod) (A : List LoadedType) :
    SettledBy (m.bind A) m.display m.isGenericDefinition m.arguments.length A.length := by
  rw [bind, isGenericDefinition, arguments]
  cases m.genericity with
  | plain => exact .of_notGeneric
  | bound names arguments => exact .of_notGeneric
  | unbound names =>
    simp only [List.length_map, length_typeParametersOf]
    split
    · next hlen => exact .of_wrongArity hlen
    · next hlen => exact .of_ok _ (not_not.1 hlen)

end LoadedMethod

open LoadedType in
theorem BindingError.names_what_was_bound :
    (∀ (t : LoadedType) (A : List LoadedType), Obtainable t →
      t.bindEagerly A = (t.bind A).map withParents ∧
      SettledBy (t.bind A) t.fullName t.isGenericDefinition t.parameters.length A.length ∧
      ∀ (B : List LoadedType) (u v : LoadedType), t.bind A = .ok u → t.bind B = .ok v →
        ((u == v) = true ↔ List.Forall₂ (fun a b => (a == b) = true) A B)) ∧
    ∀ (m : LoadedMethod) (A : List LoadedType), (∀ p ∈ m.parameters, Obtainable p) →
      m.bindEagerly A = m.bind A ∧
      SettledBy (m.bind A) m.display m.isGenericDefinition m.arguments.length A.length := by
  constructor
  · intro t A ht
    exact ⟨ht.bindEagerly_eq A, t.bind_settledBy A, fun B u v => beq_bound_iff⟩
  · intro m A hm
    exact ⟨LoadedMethod.bindEagerly_eq hm A, m.bind_settledBy A⟩

namespace Library

def containsList : LoadedMethod :=
  .generic (.defined sequenceMethods) "Contains" true ["TSource"]
    [sequence.instantiate [list.instantiate (containsParameters.map .parameter)]]

end Library

open LoadedType in
theorem BindingError.journal_bound_throughout :
    (defined Library.journal).Obtainable ∧
    (defined Library.journal).bindEagerly [.defined Library.string, Library.setOfStrings] =
      .ok ⟨Library.setJournal, some (Library.list.instantiate [.defined Library.string]),
        [Library.sequence.instantiate [Library.setOfStrings]]⟩ ∧
    (defined Library.journal).bind [.defined Library.string] = .error (.wrongArity "Journal`1`2" 2 1) ∧
    Library.containsList.bindEagerly [] = .error (.wrongArity Library.containsList.display 1 0) := by
  have ht : (defined Library.journal).Obtainable := by decide +kernel
  have hm : ∀ p ∈ Library.containsList.parameters, p.Obtainable := by decide +kernel
  obtain ⟨htypes, hmethods⟩ := names_what_was_bound
  refine ⟨ht, ?_, ?_, ?_⟩
  · rw [(htypes (.defined Library.journal) _ ht).1]
    rfl
  · exact (htypes (.defined Library.journal) _ ht).2.1.wrongArity rfl (by decide)
  · obtain ⟨heager, hsettled⟩ := hmethods Library.containsList [] hm
    rw [heager]
    exact hsettled.wrongArity rfl (by decide)

/-- With a base class that cannot be come by, it is the definition in the base class that refuses. -/
example : (LoadedType.defined (Library.journal.extending
      (.constructed Library.list [Library.journalParameter 0 "K", Library.journalParameter 1 "V"]))).bindEagerly
        [.defined Library.string, Library.setOfStrings] =
    .error (.wrongArity "System.Collections.Generic.List`1" 1 2) := rfl

end CollationLint
