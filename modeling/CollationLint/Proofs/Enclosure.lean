import CollationLint.Proofs.WellKnown

namespace CollationLint

namespace Forest

/-- Child links lead from `p` down to `c`, and no node strictly between the two has the property `P`. -/
inductive Encloses (f : Forest) (P : Nat → Prop) : Nat → Nat → Prop
  | child {p c : Nat} (hc : c ∈ f.children p) : Encloses f P p c
  | through {p m c : Nat} (hp : Encloses f P p m) (hm : ¬P m) (hc : c ∈ f.children m) : Encloses f P p c

variable {f : Forest} {P : Nat → Prop} {i j p : Nat}

theorem encloses_of_parent? (hp : f.parent? i = some p) :
    f.Encloses P j i ↔ j = p ∨ ¬P p ∧ f.Encloses P j p := by
  have only {m : Nat} (hm : i ∈ f.children m) : m = p := by
    have hm' := (f.linked.parent_iff i m).2 hm
    cases hm'.symm.trans hp
    rfl
  constructor
  · intro h
    cases h with
    | child hc => exact .inl (only hc)
    | through hj hm hc =>
      cases only hc
      exact .inr ⟨hm, hj⟩
  · have hc := (f.linked.parent_iff i p).1 hp
    rintro (rfl | ⟨hm, hj⟩)
    · exact .child hc
    · exact .through hj hm hc

theorem not_encloses_of_parent?_eq_none (hp : f.parent? i = none) : ¬f.Encloses P j i := by
  have free {m : Nat} (hm : i ∈ f.children m) : False := by
    cases hp.symm.trans ((f.linked.parent_iff i m).2 hm)
  intro h
  cases h with
  | child hc => exact free hc
  | through _ _ hc => exact free hc

theorem findSome?_ancestors_eq_some_iff {α : Type} (g : Nat → Option α) (b : α) :
    (f.ancestors i).findSome? g = some b ↔
      ∃ j, g j = some b ∧ f.Encloses (fun m => (g m).isSome = true) j i := by
  fun_induction f.ancestors i with
  | case1 i hp => simp [not_encloses_of_parent?_eq_none hp]
  | case2 i p hp ih =>
    simp only [encloses_of_parent? hp, List.findSome?_cons]
    cases hg : g p with
    | some a =>
      constructor
      · intro h
        cases h
        exact ⟨p, hg, .inl rfl⟩
      · rintro ⟨j, hj, rfl | ⟨hm, -⟩⟩
        · exact hg.symm.trans hj
        · exact absurd rfl hm
    | none =>
      rw [ih]
      constructor
      · rintro ⟨j, hj, he⟩
        exact ⟨j, hj, .inr ⟨by simp, he⟩⟩
      · rintro ⟨j, hj, rfl | ⟨-, he⟩⟩
        · cases hg.symm.trans hj
        · exact ⟨j, hj, he⟩

theorem find?_ancestors_eq_some_iff (q : Nat → Bool) :
    (f.ancestors i).find? q = some j ↔ q j = true ∧ f.Encloses (fun m => q m = true) j i := by
  rw [List.find?_eq_findSome?_guard, findSome?_ancestors_eq_some_iff]
  simp only [Option.guard_eq_some_iff, Option.isSome_guard]
  constructor
  · rintro ⟨_, ⟨rfl, hq⟩, he⟩
    exact ⟨hq, he⟩
  · rintro ⟨hq, he⟩
    exact ⟨j, ⟨rfl, hq⟩, he⟩

def IsCall (f : Forest) (i : Nat) : Prop := (f.target? i).isSome = true

/-- The call at `call` is the nearest one around the nearest lambda around `i`. -/
structure Governs (f : Forest) (call function i : Nat) : Prop where
  isFunction : f.isFunction function = true
  nearestFunction : f.Encloses (fun m => f.isFunction m = true) function i
  nearestCall : f.Encloses f.IsCall call function

theorem inScope_of_governs {call function : Nat} {target : MethodRef} (hg : f.Governs call function i)
    (ht : f.target? call = some target) (entryPoints : List LoadedType) :
    f.inScope entryPoints i = entryPoints.any target.owner.denotes := by
  have hf := (find?_ancestors_eq_some_iff f.isFunction).2 ⟨hg.isFunction, hg.nearestFunction⟩
  have hc := (findSome?_ancestors_eq_some_iff f.target? target).2 ⟨call, ht, hg.nearestCall⟩
  rw [inScope, hf]
  simp only [hc]

theorem exists_governs_of_found {function : Nat} {target : MethodRef}
    (hf : (f.ancestors i).find? f.isFunction = some function)
    (hc : (f.ancestors function).findSome? f.target? = some target) :
    ∃ call, f.Governs call function i ∧ f.target? call = some target := by
  obtain ⟨hfun, hnear⟩ := (find?_ancestors_eq_some_iff f.isFunction).1 hf
  obtain ⟨call, ht, hcall⟩ := (findSome?_ancestors_eq_some_iff f.target? target).1 hc
  exact ⟨call, ⟨hfun, hnear, hcall⟩, ht⟩

theorem exists_governs_of_inScope {entryPoints : List LoadedType} (h : f.inScope entryPoints i = true) :
    ∃ call function target, f.Governs call function i ∧ f.target? call = some target := by
  rw [inScope] at h
  cases hf : (f.ancestors i).find? f.isFunction with
  | none => simp [hf] at h
  | some function =>
    cases hc : (f.ancestors function).findSome? f.target? with
    | none => simp [hf, hc] at h
    | some target =>
      obtain ⟨call, hg⟩ := exists_governs_of_found hf hc
      exact ⟨call, function, target, hg⟩

variable (f i) in
theorem inScope_iff_governed (entryPoints : List LoadedType) :
    (f.inScope entryPoints i = true ↔ ∃ call function target, f.Governs call function i ∧
      f.target? call = some target ∧ ∃ e ∈ entryPoints, target.owner.denotes e = true) ∧
    ∀ call function target, f.Governs call function i → f.target? call = some target →
      (∀ e ∈ entryPoints, target.owner.denotes e = false) → f.inScope entryPoints i = false := by
  constructor
  · constructor
    · intro h
      obtain ⟨call, function, target, hg, ht⟩ := exists_governs_of_inScope h
      rw [inScope_of_governs hg ht, List.any_eq_true] at h
      exact ⟨call, function, target, hg, ht, h⟩
    · rintro ⟨call, function, target, hg, ht, he⟩
      rw [inScope_of_governs hg ht, List.any_eq_true]
      exact he
  · intro call function target hg ht hno
    rw [inScope_of_governs hg ht, List.any_eq_false]
    intro e he
    rw [hno e he]
    exact Bool.false_ne_true

end Forest

namespace Library

def nestedQuery : Forest := query [
  stringLocal "x",
  ⟨.anonymousFunction, none, site, [0]⟩,
  ⟨.argument, none, site, [1]⟩,
  ⟨.invocation ⟨mention sequenceMethods, "Any", true, [], []⟩, none, site, [2]⟩]

end Library

theorem Forest.local_lambda_out_of_scope :
    Library.nestedQuery.inScope Library.known.entryPoints 3 = true ∧
      Library.nestedQuery.inScope Library.known.entryPoints 0 = false := by
  let f := Library.nestedQuery
  have houter : f.Governs 6 4 3 :=
    ⟨by decide +kernel, .child (by decide +kernel),
      .through (m := 5) (.child (by decide +kernel)) (by rw [IsCall]; decide +kernel) (by decide +kernel)⟩
  have hinner : f.Governs 3 1 0 :=
    ⟨by decide +kernel, .child (by decide +kernel),
      .through (m := 2) (.child (by decide +kernel)) (by rw [IsCall]; decide +kernel) (by decide +kernel)⟩
  have hwhere : f.target? 6 = some ⟨Library.mention Library.queryMethods, "Where", true, [], []⟩ := by
    decide +kernel
  have hany : f.target? 3 = some ⟨Library.mention Library.sequenceMethods, "Any", true, [], []⟩ := by
    decide +kernel
  constructor
  · apply (Forest.inScope_iff_governed f 3 Library.known.entryPoints).1.2
    exact ⟨6, 4, _, houter, hwhere, .defined Library.queryMethods, .head _, by decide +kernel⟩
  · apply (Forest.inScope_iff_governed f 0 Library.known.entryPoints).2 3 1 _ hinner hany
    intro e he
    obtain rfl := List.mem_singleton.1 he
    decide +kernel

end CollationLint
