import CollationLint.Loaded.Stored
import CollationLint.Proofs.Obtainable

namespace CollationLint.StoredType

open Declaration (Clause)

variable {t u s : StoredType} {σ : List (StoredType × StoredType)} {A : List StoredType}

theorem subst_of_lookup {a : StoredType} (h : σ.lookup t = some a) : t.subst σ = .ok a := by
  obtain ⟨_, _, _, _, _, _, _, _ | d, _, _⟩ := t
  · rw [subst, h]
    · rfl
    · simp
  · rw [subst, h]

theorem subst_of_not_bound (h : σ.lookup t = none) (hd : t.definition = none) : t.subst σ = .ok t := by
  obtain ⟨_, _, _, _, _, _, _, _, _, _⟩ := t
  cases hd
  rw [subst, h]
  · rfl
  · simp

theorem subst_of_definition {d : StoredType} (h : σ.lookup t = none) (hd : t.definition = some d) :
    t.subst σ = if t.isOpen then substAll σ t.arguments >>= d.bind else .ok t := by
  obtain ⟨_, _, _, _, _, _, _, _, _, _⟩ := t
  cases hd
  rw [subst, h]

theorem bind_eq (t : StoredType) (A : List StoredType) :
    t.bind A =
      if t.parameters.isEmpty then .error (.notGeneric t.fullName)
      else if t.parameters.length ≠ A.length then .error (.wrongArity t.fullName t.parameters.length A.length)
      else if t.parameters == A then .ok t
      else do
        let base ← substOption (t.parameters.zip A) t.base
        let interfaces ← substAll (t.parameters.zip A) t.interfaces
        return t.constructed A base interfaces := by
  cases t
  rw [bind]

theorem exists_of_mem_substAll {ts us : List StoredType} (h : substAll σ ts = .ok us) (hu : u ∈ us) :
    ∃ t ∈ ts, t.subst σ = .ok u := by
  induction ts generalizing us with
  | nil =>
    cases h
    cases hu
  | cons t ts ih =>
    rw [substAll, bind_eq_ok_iff] at h
    obtain ⟨v, hv, h⟩ := h
    obtain ⟨vs, hvs, h⟩ := bind_eq_ok_iff.1 h
    cases h
    rcases List.mem_cons.1 hu with rfl | hu
    · exact ⟨t, List.mem_cons_self, hv⟩
    · obtain ⟨w, hw, hsubst⟩ := ih hvs hu
      exact ⟨w, List.mem_cons_of_mem t hw, hsubst⟩

theorem exists_of_substOption {o : Option StoredType} (h : substOption σ o = .ok (some u)) :
    ∃ t, o = some t ∧ t.subst σ = .ok u := by
  cases o with
  | none => cases h
  | some t =>
    rw [substOption, bind_eq_ok_iff] at h
    obtain ⟨v, hv, h⟩ := h
    cases h
    exact ⟨t, rfl, hv⟩

theorem subst_cases (h : t.subst σ = .ok u) :
    u ∈ σ.map Prod.snd ∨ u = t ∨
      ∃ d bound, t.definition = some d ∧ substAll σ t.arguments = .ok bound ∧ d.bind bound = .ok u := by
  cases ha : σ.lookup t with
  | some a =>
    rw [subst_of_lookup ha] at h
    cases h
    rw [List.lookup_eq_findSome?] at ha
    obtain ⟨e, he, ha⟩ := List.exists_of_findSome?_eq_some ha
    split at ha <;> cases ha
    exact .inl (List.mem_map_of_mem he)
  | none =>
    right
    cases hd : t.definition with
    | none =>
      rw [subst_of_not_bound ha hd] at h
      cases h
      exact .inl rfl
    | some d =>
      rw [subst_of_definition ha hd] at h
      split at h
      · obtain ⟨bound, hbound, hu⟩ := bind_eq_ok_iff.1 h
        exact .inr ⟨d, bound, rfl, hbound, hu⟩
      · cases h
        exact .inl rfl

theorem bind_cases (h : t.bind A = .ok u) :
    u = t ∨ t.parameters ≠ [] ∧ t.parameters.length = A.length ∧ (t.parameters == A) = false ∧
      ∃ base interfaces, substOption (t.parameters.zip A) t.base = .ok base ∧
        substAll (t.parameters.zip A) t.interfaces = .ok interfaces ∧ u = t.constructed A base interfaces := by
  rw [bind_eq] at h
  split at h
  · cases h
  · next hempty =>
    split at h
    · cases h
    · next hlen =>
      split at h
      · cases h
        exact .inl rfl
      · next hne =>
        obtain ⟨base, hbase, h⟩ := bind_eq_ok_iff.1 h
        obtain ⟨interfaces, hinterfaces, h⟩ := bind_eq_ok_iff.1 h
        cases h
        exact .inr ⟨by simpa using hempty, not_not.1 hlen, by simpa using hne, base, interfaces, hbase,
          hinterfaces, rfl⟩

inductive Part (t : StoredType) : StoredType → Prop
  | parameter {p : StoredType} (h : p ∈ t.parameters) : Part t p
  | argument {a : StoredType} (h : a ∈ t.arguments) : Part t a
  | definition {d : StoredType} (h : t.definition = some d) : Part t d
  | base {b : StoredType} (h : t.base = some b) : Part t b
  | interface {i : StoredType} (h : i ∈ t.interfaces) : Part t i

theorem Part.sizeOf_lt (h : Part t s) : sizeOf s < sizeOf t := by
  obtain ⟨_, _, _, _, _, parameters, arguments, definition, base, interfaces⟩ := t
  rw [mk.sizeOf_spec]
  cases h with
  | parameter h | argument h | interface h =>
    have := List.sizeOf_lt_of_mem h
    simp only at this
    omega
  | definition h | base h =>
    cases h
    simp only [Option.some.sizeOf_spec]
    omega

theorem partRec {motive : StoredType → Prop} (step : ∀ t, (∀ s, Part t s → motive s) → motive t)
    (t : StoredType) : motive t :=
  (measure (sizeOf : StoredType → Nat)).wf.induction t fun t ih => step t fun s hs => ih s hs.sizeOf_lt

structure IsRegular (t : StoredType) : Prop where
  unmixed : t.parameters = [] ∨ t.arguments = []
  definition_isSome : t.definition.isSome = true ↔ t.arguments ≠ []
  definition : ∀ d, t.definition = some d → d.parameters ≠ [] ∧ d.assembly = t.assembly ∧ d.space = t.space ∧
    d.name = t.name ∧ d.form = t.form ∧ d.parameters.length = t.arguments.length ∧
    (d.parameters == t.arguments) = false
  name : ∀ n, 0 < n → t.parameters.length = n ∨ t.arguments.length = n → ∃ stem, t.name = withArity stem n
  parameter : ∀ (i : Nat) (p : StoredType), t.parameters[i]? = some p → p.form = .parameter t.fullName i

def IsSound (t : StoredType) : Prop := ∀ s, Relation.ReflTransGen Part t s → s.IsRegular

theorem IsSound.isRegular (h : t.IsSound) : t.IsRegular := h t .refl

theorem IsSound.part (h : t.IsSound) (hs : Part t s) : s.IsSound := fun r hr => h r (.head hs hr)

theorem isSound_of_parts (ht : t.IsRegular) (h : ∀ s, Part t s → s.IsSound) : t.IsSound := by
  intro s hs
  rcases Relation.ReflTransGen.cases_head hs with rfl | ⟨r, hr, hrs⟩
  · exact ht
  · exact h r hr s hrs

theorem isSound_of_empty (hp : t.parameters = []) (ha : t.arguments = []) (hd : t.definition = none)
    (hb : t.base = none) (hi : t.interfaces = []) : t.IsSound := by
  apply isSound_of_parts
  · constructor
    · exact .inl hp
    · simp [ha, hd]
    · simp [hd]
    · intro n hn hlen
      simp only [hp, ha, List.length_nil] at hlen
      omega
    · simp [hp]
  · intro s hs
    cases hs with
    | parameter h => simp [hp] at h
    | argument h => simp [ha] at h
    | definition h => simp [hd] at h
    | base h => simp [hb] at h
    | interface h => simp [hi] at h

theorem isSound_parameter (p : Parameter) : (parameter p).IsSound := isSound_of_empty rfl rfl rfl rfl rfl

/-- What a definition under construction is like. -/
structure IsDraft (t : StoredType) : Prop where
  arguments : t.arguments = []
  definition : t.definition = none
  isSound : t.IsSound

theorem isDraft_blank (role : Role) (assembly space name : String) :
    (blank role assembly space name).IsDraft :=
  ⟨rfl, rfl, isSound_of_empty rfl rfl rfl rfl rfl⟩

theorem IsDraft.withParameters (h : t.IsDraft) (names : List String) : (t.withParameters names).IsDraft := by
  rw [StoredType.withParameters]
  split
  · exact h
  · refine ⟨h.arguments, h.definition, isSound_of_parts ?_ fun s hs => ?_⟩
    · constructor
      · exact .inr h.arguments
      · simp [h.arguments, h.definition]
      · simp [h.definition]
      · intro n hn hlen
        simp only [List.length_mapIdx, h.arguments, List.length_nil] at hlen
        obtain rfl : names.length = n := by omega
        exact ⟨t.name, rfl⟩
      · intro i p hp
        simp only [List.getElem?_mapIdx, Option.map_eq_some_iff] at hp
        obtain ⟨n, -, rfl⟩ := hp
        rfl
    · cases hs with
      | parameter hp =>
        obtain ⟨i, hi, rfl⟩ := List.mem_mapIdx.1 hp
        exact isSound_parameter _
      | argument ha => exact h.isSound.part (.argument ha)
      | definition hd => exact h.isSound.part (.definition hd)
      | base hb => exact h.isSound.part (.base hb)
      | interface hi => exact h.isSound.part (.interface hi)

theorem IsDraft.withParents {base : Option StoredType} {interfaces : List StoredType} (h : t.IsDraft)
    (hb : ∀ b, base = some b → b.IsSound) (hi : ∀ i ∈ interfaces, i.IsSound) :
    IsDraft { t with base, interfaces } := by
  have hr := h.isSound.isRegular
  refine ⟨h.arguments, h.definition, isSound_of_parts ?_ fun s hs => ?_⟩
  · exact ⟨hr.unmixed, hr.definition_isSome, hr.definition, hr.name, hr.parameter⟩
  · cases hs with
    | parameter hp => exact h.isSound.part (.parameter hp)
    | argument ha => exact h.isSound.part (.argument ha)
    | definition hd => exact h.isSound.part (.definition hd)
    | base hs => exact hb s hs
    | interface hs => exact hi s hs

theorem IsDraft.extending {b : StoredType} (h : t.IsDraft) (hb : b.IsSound) : (t.extending b).IsDraft := by
  apply h.withParents
  · rintro _ ⟨⟩
    exact hb
  · intro i hi
    exact h.isSound.part (.interface hi)

theorem IsDraft.implementing {i : StoredType} (h : t.IsDraft) (hi : i.IsSound) : (t.implementing i).IsDraft := by
  apply h.withParents
  · intro b hb
    exact h.isSound.part (.base hb)
  · intro s hs
    rcases List.mem_append.1 hs with hs | hs
    · exact h.isSound.part (.interface hs)
    · rw [List.mem_singleton.1 hs]
      exact hi

def apply (t : StoredType) : Clause StoredType → StoredType
  | .parameters names => t.withParameters names
  | .extending base => t.extending base
  | .implementing interface => t.implementing interface

def written (t : StoredType) (clauses : List (Clause StoredType)) : StoredType := clauses.foldl apply t

theorem IsDraft.apply {c : Clause StoredType} (h : t.IsDraft) (hc : ∀ s ∈ c.types, s.IsSound) :
    (t.apply c).IsDraft := by
  cases c with
  | parameters names => exact h.withParameters names
  | extending base => exact h.extending (hc base (List.mem_singleton.2 rfl))
  | implementing interface => exact h.implementing (hc interface (List.mem_singleton.2 rfl))

theorem IsDraft.written {clauses : List (Clause StoredType)} (h : t.IsDraft)
    (hc : ∀ c ∈ clauses, ∀ s ∈ c.types, s.IsSound) : (t.written clauses).IsDraft := by
  induction clauses generalizing t with
  | nil => exact h
  | cons c clauses ih =>
    obtain ⟨hfirst, hrest⟩ := List.forall_mem_cons.1 hc
    exact ih (h.apply hfirst) hrest

theorem IsRegular.constructed (h : t.IsRegular) (hp : t.parameters ≠ []) (hlen : t.parameters.length = A.length)
    (hne : (t.parameters == A) = false) (base : Option StoredType) (interfaces : List StoredType) :
    (t.constructed A base interfaces).IsRegular where
  unmixed := .inl rfl
  definition_isSome := by
    have hA : A ≠ [] := by
      rintro rfl
      exact hp (List.length_eq_zero_iff.1 hlen)
    exact ⟨fun _ => hA, fun _ => rfl⟩
  definition d hd := by
    cases hd
    exact ⟨hp, rfl, rfl, rfl, rfl, hlen, hne⟩
  name n hn hlen' := by
    apply h.name n hn
    left
    rw [hlen]
    apply hlen'.resolve_left
    simp only [StoredType.constructed, List.length_nil]
    omega
  parameter i p hi := by cases hi

theorem IsSound.constructed {base : Option StoredType} {interfaces : List StoredType} (h : t.IsSound)
    (hp : t.parameters ≠ []) (hlen : t.parameters.length = A.length) (hne : (t.parameters == A) = false)
    (hA : ∀ a ∈ A, a.IsSound) (hb : ∀ b, base = some b → b.IsSound) (hi : ∀ i ∈ interfaces, i.IsSound) :
    (t.constructed A base interfaces).IsSound := by
  apply isSound_of_parts (h.isRegular.constructed hp hlen hne base interfaces)
  intro s hs
  cases hs with
  | parameter hs => cases hs
  | argument hs => exact hA s hs
  | definition hs =>
    cases hs
    exact h
  | base hs => exact hb s hs
  | interface hs => exact hi s hs

def KeepsSoundness (t : StoredType) : Prop :=
  (∀ σ u, (∀ a ∈ σ.map Prod.snd, a.IsSound) → t.subst σ = .ok u → u.IsSound) ∧
    ∀ A u, (∀ a ∈ A, a.IsSound) → t.bind A = .ok u → u.IsSound

theorem IsSound.keepsSoundness (ht : t.IsSound) : t.KeepsSoundness := by
  -- substitution binds the definition that a type keeps, and binding substitutes in what the definition
  -- extends: neither can be settled before the other
  induction t using partRec with
  | step t ih =>
    have hpart {s : StoredType} (hs : Part t s) : s.KeepsSoundness := ih s hs (ht.part hs)
    constructor
    · intro σ u hσ hu
      obtain hu | rfl | ⟨d, bound, hd, hbound, hu⟩ := subst_cases hu
      · exact hσ u hu
      · exact ht
      · apply (hpart (.definition hd)).2 bound u _ hu
        intro a ha
        obtain ⟨b, hb, hsubst⟩ := exists_of_mem_substAll hbound ha
        exact (hpart (.argument hb)).1 σ a hσ hsubst
    · intro A u hA hu
      obtain rfl | ⟨hp, hlen, hne, base, interfaces, hbase, hinterfaces, rfl⟩ := bind_cases hu
      · exact ht
      have hvalues : ∀ a ∈ (t.parameters.zip A).map Prod.snd, a.IsSound := by
        intro a ha
        obtain ⟨e, he, rfl⟩ := List.mem_map.1 ha
        exact hA e.2 (List.of_mem_zip he).2
      apply ht.constructed hp hlen hne hA
      · rintro b rfl
        obtain ⟨c, hc, hsubst⟩ := exists_of_substOption hbase
        exact (hpart (.base hc)).1 _ b hvalues hsubst
      · intro i hi
        obtain ⟨j, hj, hsubst⟩ := exists_of_mem_substAll hinterfaces hi
        exact (hpart (.interface hj)).1 _ i hvalues hsubst

/-- Types that come about by making parameters, by calls on a new definition in any order, and by binding. -/
inductive Obtainable : StoredType → Prop
  | parameter (p : Parameter) : Obtainable (parameter p)
  | written (role : Role) (assembly space name : String) (clauses : List (Clause StoredType))
      (h : ∀ c ∈ clauses, ∀ t ∈ c.types, Obtainable t) :
      Obtainable ((blank role assembly space name).written clauses)
  | bound {t u : StoredType} {A : List StoredType} (ht : Obtainable t) (hA : ∀ a ∈ A, Obtainable a)
      (hb : t.bind A = .ok u) : Obtainable u

theorem Obtainable.isSound (h : Obtainable t) : t.IsSound := by
  induction h with
  | parameter p => exact isSound_parameter p
  | written role assembly space name clauses _ ih => exact ((isDraft_blank _ _ _ _).written ih).isSound
  | bound _ _ hb iht ihA => exact iht.keepsSoundness.2 _ _ ihA hb

end CollationLint.StoredType
