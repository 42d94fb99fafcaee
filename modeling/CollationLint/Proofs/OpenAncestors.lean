import CollationLint.Proofs.Naming
import CollationLint.Proofs.Ordering

namespace CollationLint

namespace LoadedType

variable {t c D : LoadedType} {d e : Definition} {A : List LoadedType}

theorem Obtainable.reach (h : Obtainable t) (hc : Relation.ReflTransGen Extends t c) : Obtainable c := by
  induction hc with
  | refl => exact h
  | tail _ hp ih => exact ih.extends hp

theorem isRoot_constructed (d : Definition) (A : List LoadedType) : (constructed d A).isRoot = false := rfl

theorem candidates_instantiate (t : LoadedType) (d : Definition) (A : List LoadedType) :
    t.candidates (d.instantiate A) = t.candidates (.defined d) := by
  have hform : (d.instantiate A).isInterface = (defined d).isInterface := by
    unfold Declaration.instantiate
    split <;> rfl
  rw [candidates, candidates, hform]

/-- Equal definitions take equally many arguments, since the number is part of the name. -/
theorem arity_eq_of_identity (hd : d.isGeneric = true) (he : e.isGeneric = true)
    (h : (defined d).identity = (defined e).identity) : d.arity = e.arity := by
  rw [identity, identity, Identity.mk.injEq] at h
  have hname : d.name = e.name := h.2.2.1
  rw [Declaration.name_of_isGeneric hd, Declaration.name_of_isGeneric he] at hname
  exact (withArity_inj hname).2

theorem derivesFrom_definition_of_bound (h : (defined d).bind A = .ok c) (hc : t.derivesFrom c = true) :
    t.derivesFrom (.defined d) = true := by
  obtain ⟨hg, hlen, rfl⟩ := bind_defined_eq_ok_iff.1 h
  by_cases hA : A = d.parameters.map .parameter
  · rwa [hA, d.instantiate_parameters] at hc
  · have hne : A ≠ [] := by
      rintro rfl
      exact Declaration.isGeneric_iff.1 hg hlen.symm
    have hcandidates := t.candidates_instantiate d A
    rw [Declaration.instantiate_of_ne hA] at hc hcandidates
    rw [derivesFrom_iff_candidate rfl, isRoot_constructed, hcandidates] at hc
    rcases hc with hr | ⟨x, hx, hid⟩
    · cases hr
    · apply (derivesFrom_definition_iff_candidate (a := .defined d) hg).2
      exact .inr (.inr ⟨x, hx, definition?_of_identity_constructed hne hid⟩)

theorem derivesFrom_bound_of_candidate (hg : d.isGeneric = true) (hd : t.derivesFrom (.defined d) = true)
    (hc : c ∈ t.candidates (.defined d)) (ho : Obtainable c) (hcon : c.isConstructed = true)
    (hid : c.definition?.map identity = some (defined d).identity) :
    ∃ u, (defined d).bind c.arguments = .ok u ∧ t.derivesFrom u = true := by
  cases c with
  | parameter p => cases hcon
  | defined e => cases hcon
  | constructed e B =>
    obtain ⟨-, hge, hlen, -, -⟩ := obtainable_constructed_iff.1 ho
    -- `e` may be declared otherwise than `d`, but it has the same name
    have heq : (defined e).identity = (defined d).identity := Option.some.inj hid
    have harity : B.length = d.arity := hlen.trans (arity_eq_of_identity hge hg heq)
    refine ⟨d.instantiate B, bind_defined_eq_ok_iff.2 ⟨hg, harity, rfl⟩, ?_⟩
    by_cases hB : B = d.parameters.map .parameter
    · rwa [hB, d.instantiate_parameters]
    · rw [← t.candidates_instantiate d B] at hc
      rw [Declaration.instantiate_of_ne hB] at hc ⊢
      exact (derivesFrom_iff_candidate rfl).2 (.inr ⟨_, hc, identity_constructed_congr heq rfl⟩)

theorem identity_of_definition?_defined (h : (defined e).definition?.map identity = some D.identity) :
    (defined e).identity = D.identity := by
  rw [definition?] at h
  split at h
  · exact Option.some.inj h
  · cases h

theorem derivesFrom_open_through_bound (ht : Obtainable t) (hD : D.isGenericDefinition = true) :
    (∀ A u, D.bind A = .ok u → t.derivesFrom u = true → t.derivesFrom D = true) ∧
    (t.derivesFrom D = true → D.isRoot = false → ∃ c ∈ t.candidates D, (c == D) = true ∨
      ∃ u, D.bind c.arguments = .ok u ∧ t.derivesFrom u = true) := by
  cases D with
  | parameter p => cases hD
  | constructed d arguments => cases hD
  | defined d =>
    refine ⟨fun A u => derivesFrom_definition_of_bound, fun h hr => ?_⟩
    rcases (derivesFrom_definition_iff_candidate hD).1 h with hid | hroot | ⟨c, hc, hid⟩
    · exact ⟨t, mem_candidates_self t _, .inl (beq_iff.2 hid)⟩
    · cases hr.symm.trans hroot
    · refine ⟨c, hc, ?_⟩
      cases c with
      | parameter p => cases hid
      | defined e => exact .inl (beq_iff.2 (identity_of_definition?_defined hid))
      | constructed e B =>
        have ho := ht.reach (reflTransGen_of_mem_candidates hc)
        exact .inr (derivesFrom_bound_of_candidate hD h hc ho rfl hid)

end LoadedType

namespace Library

def bareSequence : Definition :=
  .withParameters ["TElement"] (.bare .interface coreAssembly collectionsSpace "IEnumerable")

end Library

theorem LoadedType.set_derives_from_bare_sequence :
    Library.setOfStrings.Obtainable ∧ (defined Library.bareSequence).isGenericDefinition = true ∧
    Library.setOfStrings.derivesFrom (.defined Library.bareSequence) = true ∧
    ∃ c ∈ Library.setOfStrings.candidates (.defined Library.bareSequence), ∃ u,
      (defined Library.bareSequence).bind c.arguments = .ok u ∧ Library.setOfStrings.derivesFrom u = true := by
  have ht : Library.setOfStrings.Obtainable := by decide +kernel
  obtain ⟨hopen, hbound⟩ := derivesFrom_open_through_bound ht (D := .defined Library.bareSequence) rfl
  have hderives := hopen [.defined Library.string] _ rfl (by decide +kernel)
  obtain ⟨c, hc, heq | hu⟩ := hbound hderives rfl
  · have hnone : ∀ c ∈ Library.setOfStrings.candidates (.defined Library.bareSequence),
        (c == .defined Library.bareSequence) = false := by
      decide +kernel
    cases heq.symm.trans (hnone c hc)
  · exact ⟨ht, rfl, hderives, c, hc, hu⟩

end CollationLint
