import CollationLint.Proofs.WellKnown
import Mathlib.Data.List.Forall2

namespace CollationLint

theorem forall_mem_of_forall₂ {α β : Type} {p : β → Prop} {as : List α} {bs : List β}
    (h : List.Forall₂ (fun _ b => p b) as bs) : ∀ b ∈ bs, p b := by
  induction h with
  | nil => simp
  | cons hb _ ih => exact List.forall_mem_cons.2 ⟨hb, ih⟩

def Resolver.Loads (resolver : Resolver) (t : LoadedType) : Prop :=
  ∃ r : TypeRef, r.load resolver = .ok (some t)

def Resolver.Crashes (resolver : Resolver) (c : Crash) : Prop :=
  ∃ assembly name arguments, resolver assembly name arguments = .crashed c

namespace Assemblies

def types (as : Assemblies) : List LoadedType := as.members.items.flatMap (·.types.items)

variable {as : Assemblies} {name : String} {t : LoadedType}

theorem mem_types_of_follow {start : String} {visits : Nat} {current : String}
    (h : as.follow start name visits current = .ok t) : t ∈ as.types ∧ t.fullName = name := by
  fun_induction as.follow start name visits current with
  | case1 => cases h
  | case2 => cases h
  | case3 => cases h
  | case4 visits current a ha hl s hs =>
    cases h
    exact ⟨List.mem_flatMap.2 ⟨a, List.mem_of_find?_eq_some ha, List.mem_of_find?_eq_some hs⟩,
      Directory.key_of_find? hs⟩
  | case5 visits current a ha hl forward hs hf ih => exact ih h
  | case6 => cases h

theorem found_iff {assembly : String} {arguments : List LoadedType} :
    as.resolver assembly name arguments = .found t ↔ as.resolve assembly name arguments = .ok t := by
  rw [resolver]
  cases as.resolve assembly name arguments <;> simp

theorem mem_types_of_found {assembly : String} {arguments : List LoadedType}
    (h : as.resolver assembly name arguments = .found t) :
    ∃ s ∈ as.types, s.fullName = name ∧
      (arguments = [] ∧ t = s ∨ arguments ≠ [] ∧ s.bind arguments = .ok t) := by
  obtain ⟨s, hs, hr⟩ := bind_eq_ok_iff.1 (found_iff.1 h)
  obtain ⟨hmem, hname⟩ := mem_types_of_follow hs
  refine ⟨s, hmem, hname, ?_⟩
  cases arguments with
  | nil =>
    cases hr
    exact .inl ⟨rfl, rfl⟩
  | cons a as => exact .inr ⟨List.cons_ne_nil a as, mapError_eq_ok_iff.1 hr⟩

end Assemblies

namespace TypeRef

variable {resolver : Resolver}

def ofAnswer : Answer → Except Crash (Option LoadedType)
  | .found t => .ok (some t)
  | .refused _ => .ok none
  | .crashed c => .error c

theorem load_named (space name assembly : String) (arguments : List TypeRef) :
    load resolver (.named space name assembly arguments) =
      match loadAll resolver arguments with
      | .error c => .error c
      | .ok none => .ok none
      | .ok (some loaded) => ofAnswer (resolver assembly
          (TypeRef.named space name assembly arguments).metadataName loaded) := by
  rw [load]
  rcases loadAll resolver arguments with c | _ | loaded
  · rfl
  · rfl
  · cases h : resolver assembly (TypeRef.named space name assembly arguments).metadataName loaded <;>
      simp [bind, Except.bind, h, ofAnswer] <;> rfl

theorem loadAll_cons (r : TypeRef) (rs : List TypeRef) :
    loadAll resolver (r :: rs) =
      match load resolver r, loadAll resolver rs with
      | .error c, _ => .error c
      | .ok none, _ => .ok none
      | .ok (some _), .error c => .error c
      | .ok (some t), .ok ts => .ok (ts.map (t :: ·)) := by
  rw [loadAll]
  rcases load resolver r with c | _ | t
  · rfl
  · rfl
  · rcases loadAll resolver rs with c | _ | ts <;> rfl

theorem load_eq_some_iff {r : TypeRef} {t : LoadedType} :
    r.load resolver = .ok (some t) ↔ ∃ space name assembly arguments loaded,
      r = .named space name assembly arguments ∧ loadAll resolver arguments = .ok (some loaded) ∧
      resolver assembly r.metadataName loaded = .found t := by
  cases r with
  | named space name assembly arguments =>
    rw [load_named]
    rcases h : loadAll resolver arguments with c | _ | loaded
    · simp [h]
    · simp [h]
    · cases ha : resolver assembly (TypeRef.named space name assembly arguments).metadataName loaded <;>
        simp [h, ha, ofAnswer]
  | array element => simp [load, pure, Except.pure]
  | parameter name => simp [load, pure, Except.pure]

theorem loadAll_eq_some_iff {rs : List TypeRef} {ts : List LoadedType} :
    loadAll resolver rs = .ok (some ts) ↔
      List.Forall₂ (fun r t => load resolver r = .ok (some t)) rs ts := by
  induction rs generalizing ts with
  | nil => cases ts <;> simp [loadAll, pure, Except.pure]
  | cons r rs ih =>
    rw [loadAll_cons]
    rcases hr : load resolver r with c | _ | t
    · cases ts <;> simp [hr]
    · cases ts <;> simp [hr]
    · rcases hrs : loadAll resolver rs with c | _ | us <;>
        cases ts <;> simp [← ih, hr, hrs]

mutual

theorem load_induction {P : TypeRef → LoadedType → Prop}
    (step : ∀ {space name assembly arguments loaded t}, List.Forall₂ P arguments loaded →
      resolver assembly (TypeRef.named space name assembly arguments).metadataName loaded = .found t →
      P (.named space name assembly arguments) t) :
    (r : TypeRef) → ∀ t, r.load resolver = .ok (some t) → P r t
  | .named space name assembly arguments, t, h => by
    obtain ⟨_, _, _, _, loaded, heq, hall, hfound⟩ := load_eq_some_iff.1 h
    cases heq
    exact step (loadAll_induction step arguments loaded hall) hfound
  | .array element, t, h => by
    obtain ⟨_, _, _, _, _, heq, -⟩ := load_eq_some_iff.1 h
    cases heq
  | .parameter name, t, h => by
    obtain ⟨_, _, _, _, _, heq, -⟩ := load_eq_some_iff.1 h
    cases heq

theorem loadAll_induction {P : TypeRef → LoadedType → Prop}
    (step : ∀ {space name assembly arguments loaded t}, List.Forall₂ P arguments loaded →
      resolver assembly (TypeRef.named space name assembly arguments).metadataName loaded = .found t →
      P (.named space name assembly arguments) t) :
    (rs : List TypeRef) → ∀ ts, loadAll resolver rs = .ok (some ts) → List.Forall₂ P rs ts
  | [], ts, h => by
    cases loadAll_eq_some_iff.1 h
    exact .nil
  | r :: rs, ts, h => by
    cases loadAll_eq_some_iff.1 h with
    | cons hr hrs =>
      exact .cons (load_induction step r _ hr)
        (loadAll_induction step rs _ (loadAll_eq_some_iff.2 hrs))

end

mutual

theorem crashes_of_load {c : Crash} : (r : TypeRef) → r.load resolver = .error c → resolver.Crashes c
  | .named space name assembly arguments, h => by
    rw [load_named] at h
    rcases hall : loadAll resolver arguments with c' | _ | loaded
    · rw [hall] at h
      cases h
      exact crashes_of_loadAll arguments hall
    · rw [hall] at h
      cases h
    · rw [hall] at h
      cases ha : resolver assembly (TypeRef.named space name assembly arguments).metadataName loaded with
      | crashed c' =>
        simp only [ha, ofAnswer, Except.error.injEq] at h
        exact ⟨_, _, _, h ▸ ha⟩
      | found t => simp [ha, ofAnswer] at h
      | refused e => simp [ha, ofAnswer] at h
  | .array _, h | .parameter _, h => by
    rw [load] at h
    cases h

theorem crashes_of_loadAll {c : Crash} :
    (rs : List TypeRef) → loadAll resolver rs = .error c → resolver.Crashes c
  | [], h => by
    rw [loadAll] at h
    cases h
  | r :: rs, h => by
    rw [loadAll_cons] at h
    rcases hr : load resolver r with c' | _ | t
    · rw [hr] at h
      cases h
      exact crashes_of_load r hr
    · rw [hr] at h
      cases h
    · rcases hrs : loadAll resolver rs with c' | ts
      · rw [hr, hrs] at h
        cases h
        exact crashes_of_loadAll rs hrs
      · rw [hr, hrs] at h
        cases h

end

theorem found_of_loads {t : LoadedType} (h : resolver.Loads t) :
    ∃ assembly name arguments, resolver assembly name arguments = .found t := by
  obtain ⟨r, hr⟩ := h
  obtain ⟨_, _, assembly, _, loaded, -, -, hfound⟩ := load_eq_some_iff.1 hr
  exact ⟨assembly, _, loaded, hfound⟩

end TypeRef

end CollationLint
