import CollationLint.Proofs.EagerBinding
import CollationLint.Proofs.StoredTypes

namespace CollationLint

namespace StoredType

variable {σ : List (StoredType × StoredType)}

theorem identity_eq (t : StoredType) :
    t.identity = .mk t.assembly t.space t.name t.form (t.arguments.map identity) := by
  have hall (ts : List StoredType) : identities ts = ts.map identity := by
    induction ts with
    | nil => rfl
    | cons t ts ih => rw [identities, ih, List.map_cons]
  cases t
  rw [identity, hall]

theorem isOpen_eq (t : StoredType) :
    t.isOpen = (t.form.isParameter || !t.parameters.isEmpty || t.arguments.any isOpen) := by
  have hany (ts : List StoredType) : anyOpen ts = ts.any isOpen := by
    induction ts with
    | nil => rfl
    | cons t ts ih => rw [anyOpen, ih, List.any_cons]
  cases t
  rw [isOpen, hany]

theorem substAll_eq {α : Type} {f g : α → StoredType} {as : List α}
    (h : ∀ a ∈ as, (f a).subst σ = .ok (g a)) : substAll σ (as.map f) = .ok (as.map g) := by
  induction as with
  | nil => rfl
  | cons a as ih =>
    rw [List.map_cons, substAll, h a List.mem_cons_self, ih fun b hb => h b (List.mem_cons_of_mem a hb)]
    rfl

theorem substOption_eq {α : Type} {f g : α → StoredType} {o : Option α}
    (h : ∀ a ∈ o, (f a).subst σ = .ok (g a)) : substOption σ (o.map f) = .ok (o.map g) := by
  cases o with
  | none => rfl
  | some a =>
    rw [Option.map_some, substOption, h a rfl]
    rfl

end StoredType

namespace LoadedType

/-- The definition that a type is made of. Unlike `definition?`, a definition has none. -/
def keptDefinition? : LoadedType → Option LoadedType
  | .constructed d _ => some (.defined d)
  | _ => none

theorem rank_keptDefinition?_le {t d : LoadedType} (h : t.keptDefinition? = some d) :
    d.rank ≤ t.rank ∧ d.isConstructed = false ∧ t.isConstructed = true := by
  cases t with
  | parameter p => cases h
  | defined e => cases h
  | constructed e arguments =>
    cases h
    refine ⟨?_, rfl, rfl⟩
    rw [rank, rank]
    omega

def stored (t : LoadedType) : StoredType :=
  { assembly := t.assembly
    space := t.space
    name := t.name
    form := t.form
    isRoot := t.isRoot
    parameters := t.parameters.map .parameter
    arguments := t.arguments.attach.map fun a => stored a.1
    definition := t.keptDefinition?.attach.map fun d => stored d.1
    base := t.base?.attach.map fun b => stored b.1
    interfaces := t.interfaces.attach.map fun i => stored i.1 }
-- a definition may be of the same rank as what is made of it, but is not itself made of another one
termination_by 2 * t.rank + t.isConstructed.toNat
decreasing_by
  · have := rank_lt_of_mem_arguments a.2
    have := a.1.isConstructed.toNat_le
    omega
  · obtain ⟨hrank, hd, ht⟩ := rank_keptDefinition?_le d.2
    rw [hd, ht, Bool.toNat_false, Bool.toNat_true]
    omega
  · have := rank_base?_lt b.2
    have := b.1.isConstructed.toNat_le
    omega
  · have := rank_interfaces_lt i.2
    have := i.1.isConstructed.toNat_le
    omega

theorem stored_eq (t : LoadedType) :
    t.stored = ⟨t.assembly, t.space, t.name, t.form, t.isRoot, t.parameters.map .parameter,
      t.arguments.map stored, t.keptDefinition?.map stored, t.base?.map stored, t.interfaces.map stored⟩ := by
  rw [stored]
  simp

variable {t : LoadedType} {d : Definition}

theorem stored_parameter (p : Parameter) : (parameter p).stored = .parameter p := stored_eq _

theorem stored_defined (d : Definition) : (defined d).stored =
    ⟨d.assembly, d.space, d.name, d.role.form, d.role = .rootClass, d.parameters.map .parameter,
      [], none, d.base.map stored, d.interfaces.map stored⟩ := stored_eq _

theorem stored_constructed (d : Definition) (A : List LoadedType) : (constructed d A).stored =
    (defined d).stored.constructed (A.map stored) ((d.base.map (subst (d.bindings A))).map stored)
      ((d.interfaces.map (subst (d.bindings A))).map stored) := by
  rw [stored_eq, StoredType.constructed, stored_defined]
  simp [keptDefinition?, stored_defined, base?, interfaces, assembly, space, name, form, isRoot, parameters, arguments]

theorem identity_stored (t : LoadedType) : t.stored.identity = t.identity := by
  induction t using step_arguments with
  | step t ih =>
    rw [StoredType.identity_eq, stored_eq, identity_eq, List.map_map]
    congr 1
    exact List.map_congr_left ih

theorem beq_stored (s t : LoadedType) : (s.stored == t.stored) = (s == t) := by
  change decide _ = decide _
  rw [identity_stored, identity_stored]

theorem beq_map_stored (A B : List LoadedType) : (A.map stored == B.map stored) = (A == B) := by
  induction A generalizing B with
  | nil => cases B <;> rfl
  | cons a A ih =>
    cases B with
    | nil => rfl
    | cons b B => rw [List.map_cons, List.map_cons, List.cons_beq_cons, List.cons_beq_cons, beq_stored, ih]

theorem map_stored_parameter (ps : List Parameter) :
    (ps.map .parameter).map stored = ps.map StoredType.parameter := by
  rw [List.map_map]
  exact List.map_congr_left fun p _ => stored_parameter p

theorem isOpen_stored (t : LoadedType) : t.stored.isOpen = t.isOpen := by
  induction t using step_arguments with
  | step t ih =>
    have hall : (t.arguments.map stored).any StoredType.isOpen = anyOpen t.arguments := by
      generalize t.arguments = ts at ih
      induction ts with
      | nil => rfl
      | cons a ts ih' =>
        obtain ⟨ha, hts⟩ := List.forall_mem_cons.1 ih
        rw [List.map_cons, List.any_cons, ha, ih' hts, anyOpen]
    rw [StoredType.isOpen_eq, stored_eq, hall, isParameter_form]
    cases t with
    | parameter p => rfl
    | defined d => simp [isParameter, parameters, arguments, anyOpen, isOpen, d.isEmpty_parameters]
    | constructed d A => simp [isParameter, parameters, arguments, isOpen]

theorem lookup_stored_parameter (ps : List Parameter) (A : List LoadedType) (p : Parameter) :
    ((ps.map StoredType.parameter).zip (A.map stored)).lookup (parameter p).stored =
      ((ps.zip A).lookup p).map stored := by
  induction ps generalizing A with
  | nil => rfl
  | cons q ps ih =>
    cases A with
    | nil => rfl
    | cons a A =>
      have hbeq : ((parameter p).stored == StoredType.parameter q) = (p == q) := by
        rw [← stored_parameter q, beq_stored, Bool.eq_iff_iff, beq_iff, beq_iff_eq]
        constructor
        · intro h
          cases eq_parameter_of_identity h
          rfl
        · rintro rfl
          rfl
      rw [List.map_cons, List.map_cons, List.zip_cons_cons, List.zip_cons_cons, List.lookup_cons,
        List.lookup_cons, hbeq, ih]
      cases p == q <;> rfl

theorem lookup_stored_of_not_isParameter (ps : List Parameter) (A : List LoadedType)
    (h : t.isParameter = false) : ((ps.map StoredType.parameter).zip (A.map stored)).lookup t.stored = none := by
  rw [List.lookup_eq_none_iff]
  rintro ⟨k, a⟩ he
  obtain ⟨p, -, rfl⟩ := List.mem_map.1 (List.of_mem_zip he).1
  rw [← stored_parameter, bne, beq_stored, Bool.not_eq_true', ← Bool.not_eq_true, beq_iff]
  intro hid
  cases eq_parameter_of_identity hid
  cases h

def SubstitutesAsStored (t : LoadedType) : Prop :=
  ∀ (ps : List Parameter) (A : List LoadedType),
    t.stored.subst ((ps.map .parameter).zip (A.map stored)) = .ok (t.subst (ps.zip A)).stored

theorem stored_instantiate (d : Definition) (A : List LoadedType) :
    (d.instantiate A).stored =
      if d.parameters.map StoredType.parameter == A.map stored then (defined d).stored
      else (defined d).stored.constructed (A.map stored) ((d.base.map (subst (d.bindings A))).map stored)
        ((d.interfaces.map (subst (d.bindings A))).map stored) := by
  have hbeq : (d.parameters.map StoredType.parameter == A.map stored) = (A == d.parameters.map .parameter) := by
    rw [← map_stored_parameter, beq_map_stored, Bool.eq_iff_iff, beq_list_iff, beq_list_iff, eq_comm]
  rw [hbeq, Declaration.instantiate]
  split
  · rfl
  · exact stored_constructed d A

theorem bind_stored (h : ∀ p ∈ d.parents, p.SubstitutesAsStored) (A : List LoadedType) :
    (defined d).stored.bind (A.map stored) = ((defined d).bind A).map stored := by
  have hbase : StoredType.substOption ((d.parameters.map .parameter).zip (A.map stored)) (d.base.map stored) =
      .ok ((d.base.map (subst (d.bindings A))).map stored) := by
    rw [Option.map_map]
    apply StoredType.substOption_eq
    intro b hb
    exact h b (List.mem_append_left _ (by simpa using hb)) d.parameters A
  have hinterfaces : StoredType.substAll ((d.parameters.map .parameter).zip (A.map stored))
      (d.interfaces.map stored) = .ok ((d.interfaces.map (subst (d.bindings A))).map stored) := by
    rw [List.map_map]
    apply StoredType.substAll_eq
    intro i hi
    exact h i (List.mem_append_right _ hi) d.parameters A
  have hparameters : (defined d).stored.parameters = d.parameters.map .parameter := by rw [stored_defined]
  have hname : (defined d).stored.fullName = d.fullName := by rw [stored_defined]; rfl
  have hb : (defined d).stored.base = d.base.map stored := by rw [stored_defined]
  have hi : (defined d).stored.interfaces = d.interfaces.map stored := by rw [stored_defined]
  rw [StoredType.bind_eq, hparameters, hname, hb, hi, hbase, hinterfaces, List.isEmpty_map, d.isEmpty_parameters,
    List.length_map, List.length_map, d.length_parameters, bind, Declaration.isGeneric, Bool.not_not]
  split
  · rfl
  · split
    · rfl
    · change _ = Except.ok (d.instantiate A).stored
      rw [stored_instantiate]
      split <;> rfl

theorem Obtainable.substitutesAsStored (h : Obtainable t) : t.SubstitutesAsStored := by
  induction t using rankRec with
  | step t ih =>
    intro ps A
    cases t with
    | parameter p =>
      rw [LoadedType.subst]
      cases hp : (ps.zip A).lookup p with
      | none =>
        apply StoredType.subst_of_not_bound
        · rw [lookup_stored_parameter, hp]
          rfl
        · rw [stored_parameter]
          rfl
      | some a =>
        apply StoredType.subst_of_lookup
        rw [lookup_stored_parameter, hp]
        rfl
    | defined d =>
      apply StoredType.subst_of_not_bound (lookup_stored_of_not_isParameter ps A rfl)
      rw [stored_defined]
    | constructed d arguments =>
      have hdefinition : (constructed d arguments).stored.definition = some (defined d).stored := by
        rw [stored_constructed]
        rfl
      rw [StoredType.subst_of_definition (lookup_stored_of_not_isParameter ps A rfl) hdefinition, isOpen_stored]
      split
      swap
      · next ho => rw [h.subst_of_isOpen (by simpa using ho)]
      obtain ⟨hd, hg, hlen, -, ha⟩ := obtainable_constructed_iff.1 h
      -- both the arguments and the parents of the definition are of lower rank
      have hrank : (constructed d arguments).rank = declarationRank d + rankAll arguments := by rw [rank]
      have hparents : ∀ p ∈ d.parents, p.SubstitutesAsStored := by
        intro p hp
        have := rank_lt_of_mem_parents hp
        exact ih p (by omega) (obtainable_defined_iff.1 hd p hp)
      have harguments : StoredType.substAll ((ps.map .parameter).zip (A.map stored)) (arguments.map stored) =
          .ok ((arguments.map (LoadedType.subst (ps.zip A))).map stored) := by
        rw [List.map_map]
        apply StoredType.substAll_eq
        intro a hm
        exact ih a (rank_lt_of_mem_arguments hm) (ha a hm) ps A
      have hlen' : (arguments.map (LoadedType.subst (ps.zip A))).length = d.arity := by rw [List.length_map, hlen]
      have hstored : (constructed d arguments).stored.arguments = arguments.map stored := by
        rw [stored_constructed]
        rfl
      rw [hstored, harguments, subst_constructed]
      change (defined d).stored.bind _ = _
      rw [bind_stored hparents, bind_defined_eq_ok_iff.2 ⟨hg, hlen', rfl⟩]
      rfl

theorem Obtainable.bind_stored (h : Obtainable t) (A : List LoadedType) :
    t.stored.bind (A.map stored) = (t.bind A).map stored := by
  cases t with
  | parameter p =>
    rw [StoredType.bind_eq, stored_parameter]
    rfl
  | defined d =>
    apply LoadedType.bind_stored
    intro p hp
    exact (obtainable_defined_iff.1 h p hp).substitutesAsStored
  | constructed d arguments =>
    rw [StoredType.bind_eq, stored_constructed, stored_defined]
    rfl

section Builder

open Declaration (Clause)

theorem stored_bare (role : Role) (assembly space name : String) :
    (defined (.bare role assembly space name)).stored = .blank role assembly space name := by
  rw [stored_defined]
  rfl

theorem stored_withParameters (d : Definition) (names : List String) :
    (defined (d.withParameters names)).stored = (defined d).stored.withParameters names := by
  rw [Declaration.withParameters, StoredType.withParameters]
  split
  · rfl
  · next hne =>
    have hname : Declaration.name { d with simpleName := d.name, parameterNames := names } =
        withArity d.name names.length := by
      apply Declaration.name_of_isGeneric
      simpa [Declaration.isGeneric] using hne
    rw [stored_defined, stored_defined, Declaration.parameters, Declaration.fullName, hname]
    simp only [StoredType.mk.injEq, true_and, and_true]
    apply List.ext_getElem
    · simp
    · simp

theorem stored_extending (d : Definition) (b : LoadedType) :
    (defined (d.extending b)).stored = (defined d).stored.extending b.stored := by
  rw [stored_defined, stored_defined]
  rfl

theorem stored_implementing (d : Definition) (i : LoadedType) :
    (defined (d.implementing i)).stored = (defined d).stored.implementing i.stored := by
  rw [stored_defined, stored_defined, StoredType.implementing, Declaration.implementing, List.map_append]
  rfl

theorem stored_apply (d : Definition) (c : Clause LoadedType) :
    (defined (c.apply d)).stored = (defined d).stored.apply (c.map stored) := by
  cases c with
  | parameters names => exact stored_withParameters d names
  | extending base => exact stored_extending d base
  | implementing interface => exact stored_implementing d interface

theorem stored_written (d : Definition) (clauses : List (Clause LoadedType)) :
    (defined (d.written clauses)).stored = (defined d).stored.written (clauses.map (Clause.map stored)) := by
  induction clauses generalizing d with
  | nil => rfl
  | cons c clauses ih =>
    have hrest := ih (c.apply d)
    rw [stored_apply] at hrest
    exact hrest

end Builder

end LoadedType

theorem exists_map_eq {α β : Type} {P : α → Prop} {f : α → β} {bs : List β}
    (h : ∀ b ∈ bs, ∃ a, P a ∧ f a = b) : ∃ as : List α, (∀ a ∈ as, P a) ∧ as.map f = bs := by
  induction bs with
  | nil => exact ⟨[], by simp, rfl⟩
  | cons b bs ih =>
    obtain ⟨hb, hbs⟩ := List.forall_mem_cons.1 h
    obtain ⟨a, ha, rfl⟩ := hb
    obtain ⟨as, has, rfl⟩ := ih hbs
    exact ⟨a :: as, List.forall_mem_cons.2 ⟨ha, has⟩, rfl⟩

theorem Declaration.Clause.types_map {α β : Type} (f : α → β) (c : Clause α) : (c.map f).types = c.types.map f := by
  cases c <;> rfl

theorem Declaration.Clause.exists_map_eq {α β : Type} {P : α → Prop} {f : α → β} {c : Clause β}
    (h : ∀ b ∈ c.types, ∃ a, P a ∧ f a = b) : ∃ c' : Clause α, (∀ a ∈ c'.types, P a) ∧ c'.map f = c := by
  cases c with
  | parameters names => exact ⟨.parameters names, by simp [types], rfl⟩
  | extending b =>
    obtain ⟨a, ha, rfl⟩ := h b (List.mem_singleton.2 rfl)
    exact ⟨.extending a, by simp [types, ha], rfl⟩
  | implementing b =>
    obtain ⟨a, ha, rfl⟩ := h b (List.mem_singleton.2 rfl)
    exact ⟨.implementing a, by simp [types, ha], rfl⟩

namespace StoredType

open Declaration (Clause)

theorem obtainable_stored {t : LoadedType} (h : t.Obtainable) : Obtainable t.stored := by
  induction h with
  | parameter p =>
    rw [LoadedType.stored_parameter]
    exact .parameter p
  | written role assembly space name clauses _ ih =>
    rw [LoadedType.stored_written, LoadedType.stored_bare]
    apply Obtainable.written
    intro c hc s hs
    obtain ⟨c, hm, rfl⟩ := List.mem_map.1 hc
    rw [Clause.types_map] at hs
    obtain ⟨t, ht, rfl⟩ := List.mem_map.1 hs
    exact ih c hm t ht
  | @bound t u A ht _ hb iht ihA =>
    apply Obtainable.bound iht (A := A.map LoadedType.stored)
    · intro s hs
      obtain ⟨a, ha, rfl⟩ := List.mem_map.1 hs
      exact ihA a ha
    · rw [ht.bind_stored, hb]
      rfl

theorem Obtainable.exists_stored {s : StoredType} (h : Obtainable s) :
    ∃ t : LoadedType, t.Obtainable ∧ t.stored = s := by
  induction h with
  | parameter p => exact ⟨.parameter p, .parameter p, LoadedType.stored_parameter p⟩
  | written role assembly space name clauses _ ih =>
    obtain ⟨clauses', hc, rfl⟩ := exists_map_eq fun c hc => Clause.exists_map_eq (ih c hc)
    refine ⟨_, .written role assembly space name clauses' hc, ?_⟩
    rw [LoadedType.stored_written, LoadedType.stored_bare]
  | @bound s u A _ _ hb iht ihA =>
    obtain ⟨t, ht, rfl⟩ := iht
    obtain ⟨B, hB, rfl⟩ := exists_map_eq ihA
    rw [ht.bind_stored] at hb
    cases hu : t.bind B with
    | error e =>
      rw [hu] at hb
      cases hb
    | ok v =>
      rw [hu] at hb
      cases hb
      exact ⟨v, .bound ht hB hu, rfl⟩

theorem entries_fit_together :
    (∀ t s : StoredType, Obtainable t → Relation.ReflTransGen Part t s → s.IsRegular) ∧
      ∀ s : StoredType, Obtainable s ↔ ∃ t : LoadedType, t.Obtainable ∧ t.stored = s := by
  constructor
  · intro t s ht hs
    exact ht.isSound s hs
  · intro s
    constructor
    · exact Obtainable.exists_stored
    · rintro ⟨t, ht, rfl⟩
      exact obtainable_stored ht

end StoredType

open LoadedType in
theorem StoredType.inherited_interface_fits :
    Obtainable Library.setJournal.stored ∧ Library.setJournal.stored.name = "Journal`1`2" ∧
      Relation.ReflTransGen Part Library.setJournal.stored
        (Library.listInterface.instantiate [.defined Library.string]).stored ∧
      (Library.listInterface.instantiate [.defined Library.string]).stored.IsRegular := by
  have ht : Obtainable Library.setJournal.stored :=
    (entries_fit_together.2 _).2 ⟨Library.setJournal, by decide +kernel, rfl⟩
  have hbase : Part Library.setJournal.stored (Library.list.instantiate [.defined Library.string]).stored := by
    apply Part.base
    rw [stored_eq]
    rfl
  have hinterface : Part (Library.list.instantiate [.defined Library.string]).stored
      (Library.listInterface.instantiate [.defined Library.string]).stored := by
    apply Part.interface
    rw [stored_eq]
    exact List.mem_cons_self
  have hparts := (Relation.ReflTransGen.single hbase).tail hinterface
  refine ⟨ht, ?_, hparts, entries_fit_together.1 _ _ ht hparts⟩
  rw [stored_eq]
  decide +kernel

end CollationLint
