import CollationLint.Proofs.WellFormed
import Mathlib.Data.List.Nodup

namespace CollationLint

def Declaration.extendsParameter (d : Definition) : Bool := d.parents.any LoadedType.isParameter

namespace LoadedType

variable {H : List Definition}

theorem isParameter_iff {t : LoadedType} : t.isParameter = true ↔ ∃ p, t = .parameter p := by
  cases t <;> simp [isParameter]

def head? : LoadedType → Option Definition
  | .parameter _ | .constructed _ [] => none
  | .defined d | .constructed d (_ :: _) => some d

/-- Types whose definition is among `H`. Their arguments matter only where one of them can be a parent. -/
inductive HeadedBy (H : List Definition) : LoadedType → Prop
  | parameter (p : Parameter) : HeadedBy H (.parameter p)
  | defined {d : Definition} (hd : d ∈ H) : HeadedBy H (.defined d)
  | constructed {d : Definition} {arguments : List LoadedType} (hd : d ∈ H) (hne : arguments ≠ [])
      (ha : d.extendsParameter = true → ∀ a ∈ arguments, HeadedBy H a) :
      HeadedBy H (.constructed d arguments)

def ClosedUnderParents (H : List Definition) : Prop :=
  ∀ d ∈ H, ∀ p ∈ d.parents, p.isParameter = true ∨
    ∃ e ∈ H, e.extendsParameter = false ∧ p.head? = some e

theorem headedBy_instantiate {d : Definition} {arguments : List LoadedType} (hd : d ∈ H)
    (hne : arguments ≠ []) (ha : d.extendsParameter = true → ∀ a ∈ arguments, HeadedBy H a) :
    HeadedBy H (d.instantiate arguments) := by
  by_cases hc : arguments = d.parameters.map .parameter
  · rw [hc, Declaration.instantiate_parameters]
    exact .defined hd
  · rw [Declaration.instantiate_of_ne hc]
    exact .constructed hd hne ha

theorem headedBy_of_head? {p : LoadedType} {e : Definition} (he : e ∈ H) (hno : e.extendsParameter = false)
    (h : p.head? = some e) (σ : Bindings) : HeadedBy H p ∧ HeadedBy H (p.subst σ) := by
  have hvacuous (arguments : List LoadedType) :
      e.extendsParameter = true → ∀ a ∈ arguments, HeadedBy H a := by
    intro h
    cases h.symm.trans hno
  match p, h with
  | .defined _, rfl => exact ⟨.defined he, .defined he⟩
  | .constructed _ (a :: as), rfl =>
    refine ⟨.constructed he (List.cons_ne_nil a as) (hvacuous _), ?_⟩
    rw [subst_constructed]
    exact headedBy_instantiate he (by simp) (hvacuous _)

theorem HeadedBy.extends (hH : ClosedUnderParents H) {t p : LoadedType} (ht : HeadedBy H t)
    (hp : t.Extends p) : HeadedBy H p := by
  cases ht with
  | parameter q => cases hp
  | defined hd =>
    rcases hH _ hd p hp with hq | ⟨e, he, hno, hhead⟩
    · obtain ⟨x, rfl⟩ := isParameter_iff.1 hq
      exact .parameter x
    · exact (headedBy_of_head? he hno hhead []).1
  | @constructed d arguments hd hne ha =>
    rw [Extends, parents_constructed] at hp
    obtain ⟨q, hq, rfl⟩ := List.mem_map.1 hp
    rcases hH d hd q hq with hparam | ⟨e, he, hno, hhead⟩
    · obtain ⟨x, rfl⟩ := isParameter_iff.1 hparam
      rw [subst]
      cases hx : (d.bindings arguments).lookup x with
      | none => exact .parameter x
      | some a => exact ha (List.any_eq_true.2 ⟨_, hq, hparam⟩) a (mem_of_lookup_zip hx)
    · exact (headedBy_of_head? he hno hhead _).2

theorem sameParents_of_arguments (d : Definition) {as bs : List LoadedType}
    (h : as.map identity = bs.map identity) : SameParents (.constructed d as) (.constructed d bs) := by
  have hid (t : LoadedType) : (t.subst (d.bindings as)).identity = (t.subst (d.bindings bs)).identity := by
    apply identity_subst_of_lookup
    intro p
    rw [Declaration.bindings, Declaration.bindings, ← lookup_zip_map, ← lookup_zip_map, h]
  constructor
  · simp [base?, Function.comp_def, hid]
  · simp [interfaces, Function.comp_def, hid]

theorem coherent_headedBy (hu : (H.map fun d => (defined d).identity).Nodup) : Coherent (HeadedBy H) := by
  have same {d e : Definition} (hd : d ∈ H) (he : e ∈ H) (h : (defined d).identity = (defined e).identity) :
      d = e :=
    List.inj_on_of_nodup_map hu hd he h
  intro s t hs ht hst
  have hid := beq_iff.1 hst
  cases hs with
  | parameter p =>
    rw [eq_parameter_of_identity hid.symm]
    exact ⟨rfl, fun _ => Iff.rfl⟩
  | defined hd =>
    cases ht with
    | parameter p => cases eq_parameter_of_identity hid
    | defined he =>
      rw [same hd he hid]
      exact ⟨rfl, fun _ => Iff.rfl⟩
    | constructed he hne _ =>
      rw [identity, identity_constructed, Identity.mk.injEq] at hid
      exact absurd (List.map_eq_nil_iff.1 hid.2.2.2.2.symm) hne
  | @constructed d as hd hne _ =>
    cases ht with
    | parameter p => cases eq_parameter_of_identity hid
    | defined he =>
      rw [identity, identity_constructed, Identity.mk.injEq] at hid
      exact absurd (List.map_eq_nil_iff.1 hid.2.2.2.2) hne
    | @constructed e bs he _ _ =>
      rw [identity_constructed, identity_constructed, Identity.mk.injEq] at hid
      obtain ⟨ha, hs, hn, hf, hargs⟩ := hid
      have hde : d = e := same hd he (by rw [identity, identity, ha, hs, hn, hf])
      rw [hde]
      exact sameParents_of_arguments e hargs

theorem irreflexive_of_definitions {𝒟 : Definition → Prop}
    (h : ∀ d, 𝒟 d → ∀ p ∈ d.parents, ∀ e ∈ p.definitions, e.isGeneric = true →
      (defined e == defined d) = false) :
    ∀ d, 𝒟 d → ∀ t, Relation.TransGen Extends (.defined d) t →
      ∀ e ∈ t.mentions, e.isGeneric = true → (defined e == defined d) = false := by
  intro d hd t ht e he hg
  have hparent : ∃ p ∈ d.parents, ∀ e ∈ t.definitions, e ∈ p.definitions := by
    clear he
    induction ht with
    | single hp => exact ⟨_, hp, fun _ he => he⟩
    | tail _ hp ih =>
      obtain ⟨p, hpd, hsub⟩ := ih
      exact ⟨p, hpd, fun e he => hsub e (mem_definitions_of_extends hp he)⟩
  obtain ⟨p, hp, hsub⟩ := hparent
  exact h d hd p hp e (hsub e (mem_definitions_of_mentions he)) hg

end LoadedType

namespace Assemblies

open LoadedType

variable {as : Assemblies} {H : List Definition}

theorem headedBy_of_found (hheld : ∀ t ∈ as.types, ∃ d ∈ H, t = .defined d)
    {assembly name : String} {arguments : List LoadedType} {t : LoadedType}
    (ha : ∀ a ∈ arguments, HeadedBy H a) (h : as.resolver assembly name arguments = .found t) :
    HeadedBy H t := by
  obtain ⟨s, hs, -, h⟩ := mem_types_of_found h
  obtain ⟨d, hd, rfl⟩ := hheld s hs
  rcases h with ⟨-, rfl⟩ | ⟨hne, h⟩
  · exact .defined hd
  · obtain ⟨-, -, rfl⟩ := bind_defined_eq_ok_iff.1 h
    exact headedBy_instantiate hd hne fun _ => ha

theorem headedBy_of_load (hheld : ∀ t ∈ as.types, ∃ d ∈ H, t = .defined d) (r : TypeRef) (t : LoadedType)
    (h : r.load as.resolver = .ok (some t)) : HeadedBy H t := by
  apply TypeRef.load_induction (P := fun _ t => HeadedBy H t) _ r t h
  intro space name assembly arguments loaded t hargs hfound
  exact headedBy_of_found hheld (forall_mem_of_forall₂ hargs) hfound

theorem coherent_of_nodup (hheld : ∀ t ∈ as.types, ∃ d ∈ H, t = .defined d)
    (hu : (H.map fun d => (LoadedType.defined d).identity).Nodup)
    (hH : ClosedUnderParents H) : Coherent as.Exposes := by
  have hheaded {t : LoadedType} (h : as.Exposes t) : HeadedBy H t := by
    induction h with
    | held h =>
      obtain ⟨d, hd, rfl⟩ := hheld _ h
      exact .defined hd
    | loaded h =>
      obtain ⟨r, hr⟩ := h
      exact headedBy_of_load hheld r _ hr
    | parent _ hp ih => exact ih.extends hH hp
  intro s t hs ht hst
  exact coherent_headedBy hu (hheaded hs) (hheaded ht) hst

end Assemblies

end CollationLint
