import CollationLint.Proofs.Binding
import CollationLint.Proofs.Interfaces
import Mathlib.Logic.Relation

namespace CollationLint

namespace Declaration

def parents (d : Definition) : List LoadedType := d.base.toList ++ d.interfaces

theorem map_parents_congr {d : Definition} {f g : LoadedType → LoadedType}
    (h : ∀ p ∈ d.parents, f p = g p) :
    d.base.map f = d.base.map g ∧ d.interfaces.map f = d.interfaces.map g := by
  constructor
  · apply Option.map_congr
    intro b hb
    exact h b (by simp [parents, Option.mem_def.1 hb])
  · apply List.map_congr_left
    intro i hi
    exact h i (by simp [parents, hi])

end Declaration

namespace LoadedType

def parents (t : LoadedType) : List LoadedType := t.base?.toList ++ t.interfaces

def Extends (t p : LoadedType) : Prop := p ∈ t.parents

theorem extends_of_base? {t b : LoadedType} (h : t.base? = some b) : t.Extends b := by
  simp [Extends, parents, h]

theorem extends_of_mem_interfaces {t i : LoadedType} (h : i ∈ t.interfaces) : t.Extends i := by
  simp [Extends, parents, h]

theorem reflTransGen_of_mem_baseTypes {t : LoadedType} :
    ∀ b ∈ t.baseTypes, Relation.ReflTransGen Extends t b :=
  of_mem_baseTypes (fun _ hs _ hb => hs.tail (extends_of_base? hb)) .refl

theorem transGen_of_implements {t i : LoadedType} (h : t.Implements i) : Relation.TransGen Extends t i := by
  induction h with
  | declared hb hi => exact .tail' (reflTransGen_of_mem_baseTypes _ hb) (extends_of_mem_interfaces hi)
  | extended _ hj ih => exact ih.tail (extends_of_mem_interfaces hj)

mutual

/-- The definitions that `t` is made of, at any depth: those that stand in it and those that their
parents are made of. -/
def definitions : LoadedType → List Definition
  | .parameter _ => []
  | .defined d => declarationDefinitions d
  | .constructed d arguments => declarationDefinitions d ++ definitionsAll arguments

def declarationDefinitions : Declaration LoadedType → List Definition
  | ⟨assembly, space, simpleName, role, parameterNames, base, interfaces⟩ =>
    ⟨assembly, space, simpleName, role, parameterNames, base, interfaces⟩ ::
      (definitionsOption base ++ definitionsAll interfaces)

def definitionsOption : Option LoadedType → List Definition
  | none => []
  | some t => t.definitions

def definitionsAll : List LoadedType → List Definition
  | [] => []
  | t :: ts => t.definitions ++ definitionsAll ts

end

theorem mem_definitionsAll {e : Definition} {ts : List LoadedType} :
    e ∈ definitionsAll ts ↔ ∃ t ∈ ts, e ∈ t.definitions := by
  induction ts with
  | nil => simp [definitionsAll]
  | cons t ts ih => simp [definitionsAll, ih]

theorem mem_definitions_defined {d e : Definition} :
    e ∈ (defined d).definitions ↔ e = d ∨ ∃ p ∈ d.parents, e ∈ p.definitions := by
  obtain ⟨_, _, _, _, _, base, interfaces⟩ := d
  cases base <;> simp [definitions, declarationDefinitions, definitionsOption, mem_definitionsAll,
    Declaration.parents]

theorem mem_definitions_constructed {d e : Definition} {arguments : List LoadedType} :
    e ∈ (constructed d arguments).definitions ↔
      e ∈ (defined d).definitions ∨ ∃ a ∈ arguments, e ∈ a.definitions := by
  simp [definitions, mem_definitionsAll]

theorem mem_definitions_self (d : Definition) : d ∈ (defined d).definitions :=
  mem_definitions_defined.2 (.inl rfl)

theorem mem_definitions_head (d : Definition) (arguments : List LoadedType) :
    d ∈ (constructed d arguments).definitions :=
  mem_definitions_constructed.2 (.inl (mem_definitions_self d))

theorem mem_definitions_instantiate {d e : Definition} {arguments : List LoadedType}
    (h : e ∈ (d.instantiate arguments).definitions) :
    e ∈ (defined d).definitions ∨ ∃ a ∈ arguments, e ∈ a.definitions := by
  by_cases hc : arguments = d.parameters.map .parameter
  · rw [hc, Declaration.instantiate_parameters] at h
    exact .inl h
  · rwa [Declaration.instantiate_of_ne hc, mem_definitions_constructed] at h

theorem mem_definitions_subst {σ : Bindings} {t : LoadedType} {e : Definition}
    (h : e ∈ (t.subst σ).definitions) :
    e ∈ t.definitions ∨ ∃ p a, σ.lookup p = some a ∧ e ∈ a.definitions := by
  induction t using argumentRec with
  | parameter p =>
    rw [subst] at h
    cases hp : σ.lookup p with
    | none => simp [hp, definitions] at h
    | some a => exact .inr ⟨p, a, hp, by simpa [hp] using h⟩
  | defined d => exact .inl h
  | constructed d arguments ih =>
    rw [subst_constructed] at h
    rcases mem_definitions_instantiate h with h | ⟨x, hx, h⟩
    · exact .inl (mem_definitions_constructed.2 (.inl h))
    · obtain ⟨a, ha, rfl⟩ := List.mem_map.1 hx
      rcases ih a ha h with h | h
      · exact .inl (mem_definitions_constructed.2 (.inr ⟨a, ha, h⟩))
      · exact .inr h

theorem mem_definitions_of_mentions {t : LoadedType} {e : Definition} (h : e ∈ t.mentions) :
    e ∈ t.definitions := by
  induction t using argumentRec with
  | parameter p => cases h
  | defined d =>
    rw [List.mem_singleton.1 h]
    exact mem_definitions_self d
  | constructed d arguments ih =>
    rcases mem_mentions_constructed.1 h with rfl | ⟨a, ha, h⟩
    · exact mem_definitions_head _ arguments
    · exact mem_definitions_constructed.2 (.inr ⟨a, ha, ih a ha h⟩)

theorem parents_constructed (d : Definition) (arguments : List LoadedType) :
    (constructed d arguments).parents = d.parents.map (subst (d.bindings arguments)) := by
  cases h : d.base <;> simp [parents, Declaration.parents, base?, interfaces, h]

theorem mem_definitions_of_extends {t p : LoadedType} (h : t.Extends p) {e : Definition}
    (he : e ∈ p.definitions) : e ∈ t.definitions := by
  cases t with
  | parameter q => cases h
  | defined d => exact mem_definitions_defined.2 (.inr ⟨p, h, he⟩)
  | constructed d arguments =>
    rw [Extends, parents_constructed] at h
    obtain ⟨q, hq, rfl⟩ := List.mem_map.1 h
    rw [mem_definitions_constructed]
    rcases mem_definitions_subst he with he | ⟨x, a, hx, he⟩
    · exact .inl (mem_definitions_defined.2 (.inr ⟨q, hq, he⟩))
    · exact .inr ⟨a, mem_of_lookup_zip hx, he⟩

theorem isParameter_of_implements {P : LoadedType → Prop} (hc : Coherent P) {t i : LoadedType}
    (hP : ∀ i, t.Implements i → P i) (hp : ∀ i ∈ t.allInterfaces, i.isParameter = false)
    (hi : t.Implements i) : i.isParameter = false := by
  obtain ⟨j, hj, hid⟩ := contains_iff.1 ((contains_allInterfaces_iff hc hP).2 ⟨i, hi, rfl⟩)
  cases i with
  | parameter q =>
    rw [eq_parameter_of_identity hid] at hj
    exact hp (.parameter q) hj
  | defined d => rfl
  | constructed d arguments => rfl

/-- A definition's parents are built from its parameters, and nothing that it extends mentions it again.
Definitions that share a parameter are equal. -/
structure Hygienic (𝒟 : Definition → Prop) : Prop where
  built : ∀ d, 𝒟 d → ∀ p ∈ d.parents, p.isBuiltFrom d.parameters = true
  irreflexive : ∀ d, 𝒟 d → ∀ t, Relation.TransGen Extends (.defined d) t →
    ∀ e ∈ t.mentions, e.isGeneric = true → (defined e == defined d) = false
  disjoint : ∀ d, 𝒟 d → ∀ e, 𝒟 e → ∀ p ∈ d.parameters, p ∈ e.parameters →
    (defined e == defined d) = true

namespace Hygienic

variable {𝒟 : Definition → Prop} {D : Definition} (h : Hygienic 𝒟)
  (hD : ∀ e ∈ (defined D).definitions, 𝒟 e)
include h

theorem isBuiltFrom_nil_of_parents {d : Definition} (hd : 𝒟 d) (hg : d.isGeneric = false) :
    ∀ p ∈ d.parents, p.isBuiltFrom [] = true := by
  intro p hp
  rw [← Declaration.parameters_eq_nil hg]
  exact h.built d hd p hp

theorem map_parents_of_not_generic {d : Definition} (hd : 𝒟 d) (hg : d.isGeneric = false)
    (σ : Bindings) : d.base = d.base.map (subst σ) ∧ d.interfaces = d.interfaces.map (subst σ) := by
  have hfix : ∀ p ∈ d.parents, id p = p.subst σ := fun p hp =>
    (subst_eq_self (h.isBuiltFrom_nil_of_parents hd hg p hp) σ).symm
  simpa using Declaration.map_parents_congr hfix

include hD

theorem isBuiltFrom_of_extends {t : LoadedType} (ht : Relation.TransGen Extends (.defined D) t) :
    t.isBuiltFrom D.parameters = true ∧ ∀ e ∈ t.definitions, 𝒟 e := by
  have hself : 𝒟 D := hD D (mem_definitions_self D)
  induction ht with
  | single hp => exact ⟨h.built D hself _ hp, fun e he => hD e (mem_definitions_of_extends hp he)⟩
  | @tail t p ht hp ih =>
    obtain ⟨hb, hdefs⟩ := ih
    have hdefs' : ∀ e ∈ p.definitions, 𝒟 e := by
      intro e he
      exact hdefs e (mem_definitions_of_extends hp he)
    refine ⟨?_, hdefs'⟩
    -- a definition that is left unbound in `p` would have the parameters of `D`, and so be `D` itself
    have hm : ∀ e ∈ p.mentions, e.isGeneric = true → ¬∀ q ∈ e.parameters, q ∈ D.parameters := by
      intro e he hg hsub
      obtain ⟨q, hq⟩ := Declaration.exists_parameter hg
      have heq := h.disjoint D hself e (hdefs' e (mem_definitions_of_mentions he)) q (hsub q hq) hq
      have hne := h.irreflexive D hself p (ht.tail hp) e he hg
      cases heq.symm.trans hne
    cases t with
    | parameter q => cases hp
    | defined d =>
      have hd : 𝒟 d := hdefs d (mem_definitions_self d)
      have hg : d.isGeneric = false := by simpa [isBuiltFrom] using hb
      exact isBuiltFrom_of_nil (h.isBuiltFrom_nil_of_parents hd hg p hp) _
    | constructed d arguments =>
      have hd : 𝒟 d := hdefs d (mem_definitions_head d arguments)
      obtain ⟨-, hlen, ha⟩ := isBuiltFrom_constructed.1 hb
      rw [Extends, parents_constructed] at hp
      obtain ⟨q, hq, rfl⟩ := List.mem_map.1 hp
      exact isBuiltFrom_subst (d.length_parameters.trans hlen.symm) ha (h.built d hd q hq) hm

theorem mirrors_subst {σ : Bindings} (hσ : ∀ q ∈ D.parameters, ∃ a, σ.lookup q = some a ∧ a.isOpen = false)
    {t : LoadedType} (ht : Relation.TransGen Extends (.defined D) t) (hp : t.isParameter = false) :
    Mirrors (subst σ) t (t.subst σ) := by
  obtain ⟨hb, hdefs⟩ := h.isBuiltFrom_of_extends hD ht
  cases t with
  | parameter q => cases hp
  | defined d =>
    have hd : 𝒟 d := hdefs d (mem_definitions_self d)
    have hg : d.isGeneric = false := by simpa [isBuiltFrom] using hb
    obtain ⟨hbase, hinterfaces⟩ := h.map_parents_of_not_generic hd hg σ
    exact ⟨hbase, hinterfaces⟩
  | constructed d arguments =>
    have hd : 𝒟 d := hdefs d (mem_definitions_head d arguments)
    obtain ⟨-, hlen, ha⟩ := isBuiltFrom_constructed.1 hb
    have hcomp : ∀ p ∈ d.parents, p.subst (d.bindings (arguments.map (subst σ))) =
        (p.subst (d.bindings arguments)).subst σ := by
      intro p hp
      have hext : Extends (constructed d arguments) (p.subst (d.bindings arguments)) := by
        rw [Extends, parents_constructed]
        exact List.mem_map_of_mem hp
      have hq := (h.isBuiltFrom_of_extends hD (ht.tail hext)).1
      exact (subst_subst (d.length_parameters.trans hlen.symm) σ (h.built d hd p hp) hq).symm
    obtain ⟨hbase, hinterfaces⟩ := Declaration.map_parents_congr hcomp
    rw [subst_constructed_of_isBuiltFrom hσ hb]
    constructor
    · rw [base?, base?, Option.map_map]
      exact hbase
    · rw [interfaces, interfaces, List.map_map]
      exact hinterfaces

section Bound

variable {A : List LoadedType} (hlen : A.length = D.arity) (hA : ∀ a ∈ A, a.isOpen = false)
include hlen hA

theorem mirrors_instantiate : Mirrors (subst (D.bindings A)) (.defined D) (D.instantiate A) := by
  cases hg : D.isGeneric with
  | true =>
    rw [Declaration.instantiate_of_isGeneric hg fun a ha => isParameter_of_isOpen (hA a ha)]
    exact ⟨rfl, rfl⟩
  | false =>
    have hnil := Declaration.parameters_eq_nil hg
    have hA' : A = D.parameters.map .parameter := by
      rw [hnil, List.map_nil]
      apply List.eq_nil_of_length_eq_zero
      rw [hlen, ← D.length_parameters, hnil, List.length_nil]
    obtain ⟨hbase, hinterfaces⟩ :=
      h.map_parents_of_not_generic (hD D (mem_definitions_self D)) hg (D.bindings A)
    nth_rewrite 2 [hA']
    rw [Declaration.instantiate_parameters]
    exact ⟨hbase, hinterfaces⟩

theorem mirrors_of_base (hp : ∀ b ∈ (defined D).baseTypes, b.isParameter = false) :
    ∀ b ∈ (defined D).baseTypes, ∀ c, b.base? = some c →
      Mirrors (subst (D.bindings A)) c (c.subst (D.bindings A)) := by
  intro b hb c hc
  apply h.mirrors_subst hD (Declaration.exists_lookup_bindings hlen hA)
  · exact .tail' (reflTransGen_of_mem_baseTypes b hb) (extends_of_base? hc)
  · exact hp c (mem_baseTypes_of_base? hb hc)

theorem mirrors_of_implements {i : LoadedType} (hi : (defined D).Implements i) (hp : i.isParameter = false) :
    Mirrors (subst (D.bindings A)) i (i.subst (D.bindings A)) :=
  h.mirrors_subst hD (Declaration.exists_lookup_bindings hlen hA) (transGen_of_implements hi) hp

end Bound

end Hygienic

end LoadedType

namespace Assemblies

variable (as : Assemblies)

def definitions : List Definition := as.types.flatMap LoadedType.definitions

inductive Exposes : LoadedType → Prop
  | held {t : LoadedType} (h : t ∈ as.types) : Exposes t
  | loaded {t : LoadedType} (h : as.resolver.Loads t) : Exposes t
  | parent {t p : LoadedType} (h : Exposes t) (hp : t.Extends p) : Exposes p

/-- Only definitions are held. A definition's parents are built from its parameters, and nothing that it
extends mentions it again. Definitions that share a parameter are equal, and so are the parents of
equal types. -/
structure WellFormed : Prop where
  held : ∀ t ∈ as.types, ∃ d, t = .defined d
  built : ∀ d ∈ as.definitions, ∀ p ∈ d.parents, p.isBuiltFrom d.parameters = true
  irreflexive : ∀ d ∈ as.definitions, ∀ t, Relation.TransGen LoadedType.Extends (.defined d) t →
    ∀ e ∈ t.mentions, e.isGeneric = true → (LoadedType.defined e == .defined d) = false
  disjoint : ∀ d ∈ as.definitions, ∀ e ∈ as.definitions, ∀ p ∈ d.parameters, p ∈ e.parameters →
    (LoadedType.defined e == .defined d) = true
  coherent : LoadedType.Coherent as.Exposes

variable {as} {D : Definition}

theorem Exposes.base {t b : LoadedType} (h : as.Exposes t) (hb : t.base? = some b) : as.Exposes b :=
  .parent h (LoadedType.extends_of_base? hb)

theorem Exposes.interface {t i : LoadedType} (h : as.Exposes t) (hi : i ∈ t.interfaces) : as.Exposes i :=
  .parent h (LoadedType.extends_of_mem_interfaces hi)

theorem Exposes.implemented {t i : LoadedType} (h : as.Exposes t) (hi : t.Implements i) : as.Exposes i :=
  hi.of_parents (LoadedType.of_mem_baseTypes (fun _ hs _ hb => hs.base hb) h) fun _ hs _ hi => hs.interface hi

theorem mem_definitions_of_held (hD : .defined D ∈ as.types) {e : Definition}
    (he : e ∈ (LoadedType.defined D).definitions) : e ∈ as.definitions :=
  List.mem_flatMap.2 ⟨_, hD, he⟩

theorem WellFormed.hygienic (hw : as.WellFormed) : LoadedType.Hygienic (· ∈ as.definitions) where
  built := hw.built
  irreflexive := hw.irreflexive
  disjoint := hw.disjoint

end Assemblies

end CollationLint
