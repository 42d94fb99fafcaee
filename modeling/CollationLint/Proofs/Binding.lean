import CollationLint.Loaded.Hierarchy

namespace CollationLint

namespace LoadedType

mutual

theorem argumentRec {motive : LoadedType → Prop} (parameter : ∀ p, motive (.parameter p))
    (defined : ∀ d, motive (.defined d))
    (constructed : ∀ d arguments, (∀ a ∈ arguments, motive a) → motive (.constructed d arguments)) :
    (t : LoadedType) → motive t
  | .parameter p => parameter p
  | .defined d => defined d
  | .constructed d arguments =>
    constructed d arguments (argumentRecAll parameter defined constructed arguments)

theorem argumentRecAll {motive : LoadedType → Prop} (parameter : ∀ p, motive (.parameter p))
    (defined : ∀ d, motive (.defined d))
    (constructed : ∀ d arguments, (∀ a ∈ arguments, motive a) → motive (.constructed d arguments)) :
    (ts : List LoadedType) → ∀ t ∈ ts, motive t
  | [] => fun _ => nofun
  | t :: ts => List.forall_mem_cons.2 ⟨argumentRec parameter defined constructed t,
      argumentRecAll parameter defined constructed ts⟩

end

theorem step_arguments {motive : LoadedType → Prop} (step : ∀ t, (∀ a ∈ t.arguments, motive a) → motive t)
    (t : LoadedType) : motive t := by
  induction t using argumentRec with
  | parameter p => exact step _ nofun
  | defined d => exact step _ nofun
  | constructed d arguments ih => exact step _ ih

mutual

/-- Whether `t` is put together from the parameters `ps` and types that are not generic, by giving
generic definitions as many arguments as they ask for. -/
def isBuiltFrom (ps : List Parameter) : LoadedType → Bool
  | .parameter p => ps.contains p
  | .defined d => !d.isGeneric
  | .constructed d arguments => d.isGeneric && arguments.length == d.arity && allBuiltFrom ps arguments

def allBuiltFrom (ps : List Parameter) : List LoadedType → Bool
  | [] => true
  | t :: ts => t.isBuiltFrom ps && allBuiltFrom ps ts

end

mutual

def mentions : LoadedType → List Definition
  | .parameter _ => []
  | .defined d => [d]
  | .constructed d arguments => d :: mentionsAll arguments

def mentionsAll : List LoadedType → List Definition
  | [] => []
  | t :: ts => t.mentions ++ mentionsAll ts

end

section Lists

variable {ps : List Parameter} {d : Definition} {arguments : List LoadedType}

theorem isBuiltFrom_constructed : (constructed d arguments).isBuiltFrom ps = true ↔
    d.isGeneric = true ∧ arguments.length = d.arity ∧ ∀ a ∈ arguments, a.isBuiltFrom ps = true := by
  have hall (ts : List LoadedType) : allBuiltFrom ps ts = true ↔ ∀ t ∈ ts, t.isBuiltFrom ps = true := by
    induction ts with
    | nil => simp [allBuiltFrom]
    | cons t ts ih => simp [allBuiltFrom, ih]
  simp [isBuiltFrom, hall, and_assoc]

theorem mem_mentions_constructed {e : Definition} :
    e ∈ (constructed d arguments).mentions ↔ e = d ∨ ∃ a ∈ arguments, e ∈ a.mentions := by
  have hall (ts : List LoadedType) : e ∈ mentionsAll ts ↔ ∃ t ∈ ts, e ∈ t.mentions := by
    induction ts with
    | nil => simp [mentionsAll]
    | cons t ts ih => simp [mentionsAll, ih]
  simp [mentions, hall]

theorem isOpen_constructed :
    (constructed d arguments).isOpen = false ↔ ∀ a ∈ arguments, a.isOpen = false := by
  have hall (ts : List LoadedType) : anyOpen ts = false ↔ ∀ t ∈ ts, t.isOpen = false := by
    induction ts with
    | nil => simp [anyOpen]
    | cons t ts ih => simp [anyOpen, ih]
  rw [isOpen, hall]

end Lists

theorem isParameter_of_isOpen {t : LoadedType} (h : t.isOpen = false) : t.isParameter = false := by
  cases t with
  | parameter p => cases h
  | defined d => rfl
  | constructed d arguments => rfl

theorem isParameter_form (t : LoadedType) : t.form.isParameter = t.isParameter := by
  have hrole (r : Role) : r.form.isParameter = false := by cases r <;> rfl
  cases t with
  | parameter p => rfl
  | defined d => exact hrole d.role
  | constructed d arguments => exact hrole d.role

theorem eq_parameter_of_identity {t : LoadedType} {p : Parameter}
    (h : t.identity = (parameter p).identity) : t = .parameter p := by
  have hform {r : Role} {o : String} {n : Nat} : r.form ≠ .parameter o n := by
    cases r <;> exact Form.noConfusion
  cases t with
  | parameter q =>
    obtain ⟨_, _, _, _⟩ := p
    obtain ⟨_, _, _, _⟩ := q
    simp only [identity, Identity.mk.injEq, Form.parameter.injEq] at h
    obtain ⟨rfl, -, rfl, ⟨rfl, rfl⟩, -⟩ := h
    rfl
  | defined d =>
    simp only [identity, Identity.mk.injEq] at h
    exact absurd h.2.2.2.1 hform
  | constructed d arguments =>
    simp only [identity, Identity.mk.injEq] at h
    exact absurd h.2.2.2.1 hform

theorem eq_parameters_of_identity {ts : List LoadedType} {ps : List Parameter}
    (h : ts.map identity = (ps.map .parameter).map identity) : ts = ps.map .parameter := by
  induction ts generalizing ps with
  | nil =>
    cases ps with
    | nil => rfl
    | cons p ps => cases h
  | cons t ts ih =>
    cases ps with
    | nil => cases h
    | cons p ps =>
      simp only [List.map_cons, List.cons.injEq] at h ⊢
      exact ⟨eq_parameter_of_identity h.1, ih h.2⟩

theorem beq_list_iff {ss ts : List LoadedType} : (ss == ts) = true ↔ ss.map identity = ts.map identity := by
  induction ss generalizing ts with
  | nil => cases ts <;> simp
  | cons s ss ih =>
    cases ts with
    | nil => simp
    | cons t ts => simp only [List.cons_beq_cons, Bool.and_eq_true, beq_iff, ih, List.map_cons, List.cons.injEq]

end LoadedType

namespace Declaration

variable {d : Definition} {arguments : List LoadedType}

theorem instantiate_parameters (d : Definition) : d.instantiate (d.parameters.map .parameter) = .defined d := by
  rw [instantiate, if_pos (LoadedType.beq_list_iff.2 rfl)]

theorem instantiate_of_ne (h : arguments ≠ d.parameters.map .parameter) :
    d.instantiate arguments = .constructed d arguments := by
  rw [instantiate, if_neg]
  intro hb
  exact h (LoadedType.eq_parameters_of_identity (LoadedType.beq_list_iff.1 hb))

theorem instantiate_inj {e : Definition} {as bs : List LoadedType} (h : d.instantiate as = e.instantiate bs) :
    d = e ∧ as = bs := by
  by_cases has : as = d.parameters.map .parameter
  · by_cases hbs : bs = e.parameters.map .parameter
    · rw [has, hbs, instantiate_parameters, instantiate_parameters] at h
      cases h
      exact ⟨rfl, has.trans hbs.symm⟩
    · rw [has, instantiate_parameters, instantiate_of_ne hbs] at h
      cases h
  · by_cases hbs : bs = e.parameters.map .parameter
    · rw [hbs, instantiate_parameters, instantiate_of_ne has] at h
      cases h
    · rw [instantiate_of_ne has, instantiate_of_ne hbs] at h
      cases h
      exact ⟨rfl, rfl⟩

theorem length_parameters (d : Definition) : d.parameters.length = d.arity := by
  simp [parameters, arity]

theorem isGeneric_iff : d.isGeneric = true ↔ d.arity ≠ 0 := by
  simp [isGeneric, arity]

theorem exists_parameter (h : d.isGeneric = true) : ∃ p, p ∈ d.parameters := by
  apply List.exists_mem_of_length_pos
  rw [length_parameters]
  exact Nat.pos_of_ne_zero (isGeneric_iff.1 h)

theorem isParameter_instantiate (d : Definition) (arguments : List LoadedType) :
    (d.instantiate arguments).isParameter = false := by
  unfold instantiate
  split <;> rfl

theorem instantiate_of_isGeneric (hg : d.isGeneric = true) (ha : ∀ a ∈ arguments, a.isParameter = false) :
    d.instantiate arguments = .constructed d arguments := by
  apply instantiate_of_ne
  rintro rfl
  obtain ⟨p, hp⟩ := exists_parameter hg
  cases ha (.parameter p) (List.mem_map_of_mem hp)

theorem isEmpty_parameters (d : Definition) : d.parameters.isEmpty = !d.isGeneric := by
  rw [isGeneric, Bool.not_not, Bool.eq_iff_iff, List.isEmpty_iff, List.isEmpty_iff, parameters,
    List.mapIdx_eq_nil_iff]

theorem parameters_eq_nil (h : d.isGeneric = false) : d.parameters = [] := by
  rw [← List.isEmpty_iff, isEmpty_parameters, h, Bool.not_false]

end Declaration

section Lookup

variable {ps : List Parameter} {arguments : List LoadedType} {p : Parameter}

theorem lookup_zip_map {β : Type} (f : LoadedType → β) :
    (ps.zip (arguments.map f)).lookup p = ((ps.zip arguments).lookup p).map f := by
  induction ps generalizing arguments with
  | nil => rfl
  | cons q ps ih =>
    cases arguments with
    | nil => rfl
    | cons a arguments =>
      simp only [List.map_cons, List.zip_cons_cons, List.lookup_cons, ih]
      split <;> rfl

theorem exists_lookup_zip (hl : ps.length = arguments.length) (hp : p ∈ ps) :
    ∃ a ∈ arguments, (ps.zip arguments).lookup p = some a := by
  induction ps generalizing arguments with
  | nil => cases hp
  | cons q ps ih =>
    cases arguments with
    | nil => cases hl
    | cons a arguments =>
      rw [List.zip_cons_cons, List.lookup_cons]
      by_cases hpq : p = q
      · exact ⟨a, List.mem_cons_self, by simp [hpq]⟩
      · obtain ⟨b, hb, hlookup⟩ := ih (by simpa using hl) ((List.mem_cons.1 hp).resolve_left hpq)
        exact ⟨b, List.mem_cons_of_mem a hb, by simp [beq_eq_false_iff_ne.2 hpq, hlookup]⟩

theorem lookup_zip_of_nodup (hnd : ps.Nodup) {i : Nat} (hi : ps[i]? = some p) :
    (ps.zip arguments).lookup p = arguments[i]? := by
  induction ps generalizing arguments i with
  | nil => cases hi
  | cons q ps ih =>
    obtain ⟨hq, hnd⟩ := List.nodup_cons.1 hnd
    cases arguments with
    | nil => rfl
    | cons a arguments =>
      rw [List.zip_cons_cons, List.lookup_cons]
      cases i with
      | zero =>
        cases hi
        simp
      | succ i =>
        rw [List.getElem?_cons_succ] at hi ⊢
        have hne : (p == q) = false := by
          rw [beq_eq_false_iff_ne]
          rintro rfl
          exact hq (List.mem_of_getElem? hi)
        rw [hne]
        exact ih hnd hi

theorem mem_of_lookup_zip {a : LoadedType} (h : (ps.zip arguments).lookup p = some a) : a ∈ arguments := by
  obtain ⟨l, r, hsplit, -⟩ := List.lookup_eq_some_iff.1 h
  have hmem : (p, a) ∈ ps.zip arguments := by simp [hsplit]
  exact (List.of_mem_zip hmem).2

theorem nodup_mapIdx_parameter (assembly owner : String) (names : List String) :
    (names.mapIdx fun i n => (⟨assembly, owner, n, i⟩ : Parameter)).Nodup := by
  apply List.pairwise_iff_getElem.2
  intro i j hi hj hij heq
  have hposition := congrArg Parameter.position heq
  simp only [List.getElem_mapIdx] at hposition
  omega

theorem Declaration.lookup_bindings {d : Definition} (hp : p ∈ d.parameters) :
    (d.bindings arguments).lookup p = arguments[p.position]? := by
  apply lookup_zip_of_nodup (nodup_mapIdx_parameter _ _ _)
  obtain ⟨i, hi, rfl⟩ := List.mem_mapIdx.1 hp
  rw [List.getElem?_mapIdx, List.getElem?_eq_getElem hi]
  rfl

theorem Declaration.exists_lookup_bindings {d : Definition} (hlen : arguments.length = d.arity)
    (ha : ∀ a ∈ arguments, a.isOpen = false) :
    ∀ q ∈ d.parameters, ∃ a, (d.bindings arguments).lookup q = some a ∧ a.isOpen = false := by
  intro q hq
  obtain ⟨a, hm, hlookup⟩ := exists_lookup_zip (d.length_parameters.trans hlen.symm) hq
  exact ⟨a, hlookup, ha a hm⟩

end Lookup

namespace LoadedType

theorem subst_constructed (σ : Bindings) (d : Definition) (arguments : List LoadedType) :
    (constructed d arguments).subst σ = d.instantiate (arguments.map (subst σ)) := by
  rw [subst, substAll_eq_map]

theorem identity_constructed (d : Definition) (arguments : List LoadedType) :
    (constructed d arguments).identity =
      .mk d.assembly d.space d.name d.role.form (arguments.map identity) := by
  rw [identity, identities_eq_map]

theorem identity_eq (t : LoadedType) :
    t.identity = .mk t.assembly t.space t.name t.form (t.arguments.map identity) := by
  cases t with
  | parameter p => rfl
  | defined d => rfl
  | constructed d arguments => exact identity_constructed d arguments

theorem identity_eq_iff {s t : LoadedType} : s.identity = t.identity ↔
    s.assembly = t.assembly ∧ s.space = t.space ∧ s.name = t.name ∧ s.form = t.form ∧
      s.arguments.map identity = t.arguments.map identity := by
  rw [identity_eq s, identity_eq t, Identity.mk.injEq]

theorem identity_constructed_congr {d e : Definition} {as bs : List LoadedType}
    (hid : (defined d).identity = (defined e).identity) (h : as.map identity = bs.map identity) :
    (constructed d as).identity = (constructed e bs).identity := by
  rw [identity, identity, Identity.mk.injEq] at hid
  rw [identity_constructed, identity_constructed, hid.1, hid.2.1, hid.2.2.1, hid.2.2.2.1, h]

theorem bind_defined_eq_ok_iff {d : Definition} {arguments : List LoadedType} {t : LoadedType} :
    (defined d).bind arguments = .ok t ↔
      d.isGeneric = true ∧ arguments.length = d.arity ∧ d.instantiate arguments = t := by
  rw [bind, Declaration.isGeneric]
  cases d.parameterNames.isEmpty with
  | true => simp
  | false =>
    by_cases hlen : d.arity = arguments.length
    · simp [hlen]
    · simp [hlen, Ne.symm hlen]

theorem exists_definition_of_bind {t u : LoadedType} {arguments : List LoadedType}
    (h : t.bind arguments = .ok u) :
    ∃ d, t = .defined d ∧ d.isGeneric = true ∧ arguments.length = d.arity ∧ d.instantiate arguments = u := by
  cases t with
  | parameter p => cases h
  | defined d => exact ⟨d, rfl, bind_defined_eq_ok_iff.1 h⟩
  | constructed d as => cases h

theorem identity_instantiate_congr {d : Definition} {as bs : List LoadedType}
    (h : as.map identity = bs.map identity) : (d.instantiate as).identity = (d.instantiate bs).identity := by
  by_cases ha : as = d.parameters.map .parameter
  · rw [ha] at h
    rw [ha, eq_parameters_of_identity h.symm]
  · have hb : bs ≠ d.parameters.map .parameter := by
      intro hb
      rw [hb] at h
      exact ha (eq_parameters_of_identity h)
    rw [Declaration.instantiate_of_ne ha, Declaration.instantiate_of_ne hb, identity_constructed,
      identity_constructed, h]

theorem identity_subst_of_lookup {σ τ : Bindings}
    (h : ∀ p, (σ.lookup p).map identity = (τ.lookup p).map identity) (t : LoadedType) :
    (t.subst σ).identity = (t.subst τ).identity := by
  induction t using argumentRec with
  | parameter p =>
    have hp := h p
    rw [subst, subst]
    cases hs : σ.lookup p <;> cases ht : τ.lookup p <;> simp_all
  | defined d => rfl
  | constructed d arguments ih =>
    rw [subst_constructed, subst_constructed]
    apply identity_instantiate_congr
    rw [List.map_map, List.map_map]
    exact List.map_congr_left ih

theorem isBuiltFrom_of_nil {t : LoadedType} (h : t.isBuiltFrom [] = true) (ps : List Parameter) :
    t.isBuiltFrom ps = true := by
  induction t using argumentRec with
  | parameter p => simp [isBuiltFrom] at h
  | defined d => exact h
  | constructed d arguments ih =>
    obtain ⟨hg, hlen, ha⟩ := isBuiltFrom_constructed.1 h
    exact isBuiltFrom_constructed.2 ⟨hg, hlen, fun a hm => ih a hm (ha a hm)⟩

theorem subst_eq_self {t : LoadedType} (h : t.isBuiltFrom [] = true) (σ : Bindings) : t.subst σ = t := by
  induction t using argumentRec with
  | parameter p => simp [isBuiltFrom] at h
  | defined d => rfl
  | constructed d arguments ih =>
    obtain ⟨hg, -, ha⟩ := isBuiltFrom_constructed.1 h
    have hmap : arguments.map (subst σ) = arguments :=
      (List.map_congr_left fun a hm => ih a hm (ha a hm)).trans (List.map_id _)
    rw [subst_constructed, hmap]
    apply Declaration.instantiate_of_ne
    rintro rfl
    obtain ⟨p, hp⟩ := Declaration.exists_parameter hg
    simpa [isBuiltFrom] using ha (.parameter p) (List.mem_map_of_mem hp)

section Compose

variable {ps qs : List Parameter} {arguments : List LoadedType} (hl : ps.length = arguments.length)
include hl

theorem isBuiltFrom_subst (ha : ∀ a ∈ arguments, a.isBuiltFrom qs = true) {t : LoadedType}
    (ht : t.isBuiltFrom ps = true)
    (hm : ∀ e ∈ (t.subst (ps.zip arguments)).mentions, e.isGeneric = true →
      ¬∀ p ∈ e.parameters, p ∈ qs) :
    (t.subst (ps.zip arguments)).isBuiltFrom qs = true := by
  induction t using argumentRec with
  | parameter p =>
    obtain ⟨a, hmem, hlookup⟩ := exists_lookup_zip hl (by simpa [isBuiltFrom] using ht)
    simpa [subst, hlookup] using ha a hmem
  | defined d => exact ht
  | constructed d bs ih =>
    obtain ⟨hg, hlen, hb⟩ := isBuiltFrom_constructed.1 ht
    rw [subst_constructed] at hm ⊢
    by_cases hc : bs.map (subst (ps.zip arguments)) = d.parameters.map .parameter
    · -- the definition would be left as it stands, with parameters that are all among `qs`
      rw [hc, Declaration.instantiate_parameters] at hm
      refine absurd (fun p hp => ?_) (hm d (by simp [mentions]) hg)
      obtain ⟨b, hbs, hbp⟩ := List.mem_map.1 (hc ▸ List.mem_map_of_mem hp : parameter p ∈ bs.map _)
      have := ih b hbs (hb b hbs) (by simp [hbp, mentions])
      simpa [hbp, isBuiltFrom] using this
    · rw [Declaration.instantiate_of_ne hc] at hm ⊢
      refine isBuiltFrom_constructed.2 ⟨hg, by simpa using hlen, ?_⟩
      intro x hx
      obtain ⟨b, hbs, rfl⟩ := List.mem_map.1 hx
      exact ih b hbs (hb b hbs) fun e he => hm e (mem_mentions_constructed.2 (.inr ⟨_, hx, he⟩))

theorem subst_subst (σ : Bindings) {t : LoadedType} (ht : t.isBuiltFrom ps = true)
    (hq : (t.subst (ps.zip arguments)).isBuiltFrom qs = true) :
    (t.subst (ps.zip arguments)).subst σ = t.subst (ps.zip (arguments.map (subst σ))) := by
  induction t using argumentRec with
  | parameter p =>
    obtain ⟨a, -, hlookup⟩ := exists_lookup_zip hl (by simpa [isBuiltFrom] using ht)
    simp [subst, lookup_zip_map, hlookup]
  | defined d => rfl
  | constructed d bs ih =>
    obtain ⟨hg, -, hb⟩ := isBuiltFrom_constructed.1 ht
    rw [subst_constructed] at hq ⊢
    have hc : bs.map (subst (ps.zip arguments)) ≠ d.parameters.map .parameter := by
      intro hc
      rw [hc, Declaration.instantiate_parameters] at hq
      simp [isBuiltFrom, hg] at hq
    rw [Declaration.instantiate_of_ne hc] at hq ⊢
    rw [subst_constructed, subst_constructed, List.map_map]
    congr 1
    apply List.map_congr_left
    intro b hbs
    exact ih b hbs (hb b hbs) ((isBuiltFrom_constructed.1 hq).2.2 _ (List.mem_map_of_mem hbs))

end Compose

theorem identity_ne_of_isBuiltFrom {qs : List Parameter} {d : Definition} {arguments : List LoadedType}
    (h : (constructed d arguments).isBuiltFrom qs = true) (e : Definition) :
    (constructed d arguments).identity ≠ (defined e).identity := by
  obtain ⟨hg, hlen, -⟩ := isBuiltFrom_constructed.1 h
  intro hid
  rw [identity_constructed, identity, Identity.mk.injEq] at hid
  rw [List.map_eq_nil_iff.1 hid.2.2.2.2] at hlen
  exact Declaration.isGeneric_iff.1 hg hlen.symm

theorem map_eq_map_of_identity {α : Type} {f g : LoadedType → α} {as bs : List LoadedType}
    (h : ∀ a ∈ as, ∀ b ∈ bs, a.identity = b.identity → f a = g b)
    (hid : as.map identity = bs.map identity) : as.map f = bs.map g := by
  induction as generalizing bs with
  | nil =>
    rw [List.map_eq_nil_iff.1 hid.symm]
    rfl
  | cons a as ih =>
    cases bs with
    | nil => cases hid
    | cons b bs =>
      rw [List.map_cons, List.map_cons, List.cons.injEq] at hid ⊢
      refine ⟨h a List.mem_cons_self b List.mem_cons_self hid.1, ih ?_ hid.2⟩
      intro x hx y hy
      exact h x (List.mem_cons_of_mem a hx) y (List.mem_cons_of_mem b hy)

section Closing

variable {qs : List Parameter} {σ : Bindings}
  (hσ : ∀ q ∈ qs, ∃ a, σ.lookup q = some a ∧ a.isOpen = false)
include hσ

theorem isOpen_subst {t : LoadedType} (h : t.isBuiltFrom qs = true) : (t.subst σ).isOpen = false := by
  induction t using argumentRec with
  | parameter p =>
    obtain ⟨a, hlookup, ha⟩ := hσ p (by simpa [isBuiltFrom] using h)
    simpa [subst, hlookup] using ha
  | defined d => simpa [subst, isOpen, isBuiltFrom] using h
  | constructed d arguments ih =>
    obtain ⟨hg, -, ha⟩ := isBuiltFrom_constructed.1 h
    have hclosed : ∀ x ∈ arguments.map (subst σ), x.isOpen = false := by
      intro x hx
      obtain ⟨a, hm, rfl⟩ := List.mem_map.1 hx
      exact ih a hm (ha a hm)
    have hplain : ∀ x ∈ arguments.map (subst σ), x.isParameter = false := by
      intro x hx
      exact isParameter_of_isOpen (hclosed x hx)
    rw [subst_constructed, Declaration.instantiate_of_isGeneric hg hplain, isOpen_constructed]
    exact hclosed

theorem subst_constructed_of_isBuiltFrom {d : Definition} {arguments : List LoadedType}
    (h : (constructed d arguments).isBuiltFrom qs = true) :
    (constructed d arguments).subst σ = .constructed d (arguments.map (subst σ)) := by
  have hclosed := isOpen_subst hσ h
  rw [subst_constructed] at hclosed ⊢
  apply Declaration.instantiate_of_ne
  intro hc
  rw [hc, Declaration.instantiate_parameters, isOpen, (isBuiltFrom_constructed.1 h).1] at hclosed
  cases hclosed

end Closing

theorem identity_subst_congr₂ {ps qs : List Parameter} {σ τ : Bindings}
    (hσ : ∀ p ∈ ps, ∃ a, σ.lookup p = some a ∧ a.isOpen = false)
    (hτ : ∀ q ∈ qs, ∃ a, τ.lookup q = some a ∧ a.isOpen = false)
    (hστ : ∀ p ∈ ps, p ∈ qs → (σ.lookup p).map identity = (τ.lookup p).map identity)
    {s t : LoadedType} (hs : s.isBuiltFrom ps = true) (ht : t.isBuiltFrom qs = true)
    (hid : s.identity = t.identity) : (s.subst σ).identity = (t.subst τ).identity := by
  induction s using argumentRec generalizing t with
  | parameter p =>
    rw [eq_parameter_of_identity hid.symm] at ht ⊢
    rw [isBuiltFrom, List.contains_iff_mem] at hs ht
    obtain ⟨a, ha, -⟩ := hσ p hs
    obtain ⟨b, hb, -⟩ := hτ p ht
    have hab := hστ p hs ht
    rw [ha, hb, Option.map_some, Option.map_some, Option.some.injEq] at hab
    rw [subst, subst, ha, hb]
    exact hab
  | defined d =>
    cases t with
    | parameter p => cases eq_parameter_of_identity hid
    | defined e => exact hid
    | constructed e bs => exact absurd hid.symm (identity_ne_of_isBuiltFrom ht d)
  | constructed d as ih =>
    cases t with
    | parameter p => cases eq_parameter_of_identity hid
    | defined e => exact absurd hid (identity_ne_of_isBuiltFrom hs e)
    | constructed e bs =>
      rw [subst_constructed_of_isBuiltFrom hσ hs, subst_constructed_of_isBuiltFrom hτ ht]
      rw [identity_constructed, identity_constructed, Identity.mk.injEq] at hid ⊢
      obtain ⟨ha, hs', hn, hf, hargs⟩ := hid
      refine ⟨ha, hs', hn, hf, ?_⟩
      rw [List.map_map, List.map_map]
      have has := (isBuiltFrom_constructed.1 hs).2.2
      have hbs := (isBuiltFrom_constructed.1 ht).2.2
      exact map_eq_map_of_identity (fun a hma b hmb => ih a hma (has a hma) (hbs b hmb)) hargs

theorem identity_subst_congr {qs : List Parameter} {σ : Bindings}
    (hσ : ∀ q ∈ qs, ∃ a, σ.lookup q = some a ∧ a.isOpen = false) {s t : LoadedType}
    (hs : s.isBuiltFrom qs = true) (ht : t.isBuiltFrom qs = true) (hid : s.identity = t.identity) :
    (s.subst σ).identity = (t.subst σ).identity :=
  identity_subst_congr₂ hσ hσ (fun _ _ _ => rfl) hs ht hid

end LoadedType

end CollationLint
