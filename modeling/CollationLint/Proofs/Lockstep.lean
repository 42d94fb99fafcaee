import CollationLint.Proofs.WellKnown
import Mathlib.Data.List.Zip
import Mathlib.Data.Nat.Find

namespace CollationLint

namespace Slot

variable {α β : Type}

def left? : Slot α β → Option α
  | .both a _ | .left a => some a
  | .right _ => none

def right? : Slot α β → Option β
  | .both _ b | .right b => some b
  | .left _ => none

def isBoth : Slot α β → Bool
  | .both _ _ => true
  | .left _ | .right _ => false

end Slot

namespace Lockstep

variable {α β σ : Type} (as : List α) (bs : List β)

theorem align_eq : align as bs = (as.zip bs).map (fun ab => .both ab.1 ab.2) ++
    ((as.drop bs.length).map .left ++ (bs.drop as.length).map .right) := by
  induction as generalizing bs with
  | nil => simp [align]
  | cons a as ih =>
    cases bs with
    | nil => simp [align]
    | cons b bs => simp [align, ih]

theorem length_align : (align as bs).length = max as.length bs.length := by
  simp only [align_eq, List.length_append, List.length_map, List.length_zip, List.length_drop]
  omega

theorem drop_align : (align as bs).drop (min as.length bs.length) =
    (as.drop bs.length).map .left ++ (bs.drop as.length).map .right := by
  rw [align_eq, List.drop_left']
  simp

theorem isBoth_align_iff {i : Nat} {slot : Slot α β} (h : (align as bs)[i]? = some slot) :
    slot.isBoth = true ↔ i < min as.length bs.length := by
  have hlen : ((as.zip bs).map fun ab => Slot.both ab.1 ab.2).length = min as.length bs.length := by simp
  rw [align_eq, List.getElem?_append, hlen] at h
  split at h
  · next hi =>
    obtain ⟨ab, -, rfl⟩ := List.mem_map.1 (List.mem_of_getElem? h)
    exact ⟨fun _ => hi, fun _ => rfl⟩
  · next hi =>
    have hone : slot.isBoth = false := by
      rcases List.mem_append.1 (List.mem_of_getElem? h) with hm | hm
      all_goals
        obtain ⟨_, -, rfl⟩ := List.mem_map.1 hm
        rfl
    simp [hone, hi]

theorem tail_align : (∀ slot ∈ (align as bs).drop (min as.length bs.length), ∃ a, slot = .left a) ∨
    ∀ slot ∈ (align as bs).drop (min as.length bs.length), ∃ b, slot = .right b := by
  rw [drop_align]
  rcases Nat.le_total as.length bs.length with h | h
  · right
    rw [List.drop_eq_nil_of_le h, List.map_nil, List.nil_append]
    intro slot hslot
    obtain ⟨b, -, rfl⟩ := List.mem_map.1 hslot
    exact ⟨b, rfl⟩
  · left
    rw [List.drop_eq_nil_of_le h, List.map_nil, List.append_nil]
    intro slot hslot
    obtain ⟨a, -, rfl⟩ := List.mem_map.1 hslot
    exact ⟨a, rfl⟩

theorem filterMap_left?_align : (align as bs).filterMap Slot.left? = as := by
  induction as generalizing bs with
  | nil => simp [align, Slot.left?, List.filterMap_map, Function.comp_def]
  | cons a as ih =>
    cases bs with
    | nil => simp [align, Slot.left?, List.filterMap_map, Function.comp_def]
    | cons b bs => simp [align, Slot.left?, ih]

theorem filterMap_right?_align : (align as bs).filterMap Slot.right? = bs := by
  induction as generalizing bs with
  | nil => simp [align, Slot.right?, List.filterMap_map, Function.comp_def]
  | cons a as ih =>
    cases bs with
    | nil => simp [align, Slot.right?]
    | cons b bs => simp [align, Slot.right?, ih]

theorem agreeM_eq_allM_zip {m : Type → Type} [Monad m] [LawfulMonad m] (p : α → β → m Bool) :
    agreeM p as bs = (· && decide (as.length = bs.length)) <$> (as.zip bs).allM fun ab => p ab.1 ab.2 := by
  unfold agreeM
  induction as generalizing bs with
  | nil => cases bs <;> simp [align]
  | cons a as ih =>
    cases bs with
    | nil => simp [align]
    | cons b bs =>
      simp only [align, List.allM, List.zip_cons_cons, map_bind]
      congr 1
      funext answer
      cases answer with
      | false => simp
      | true => simpa using ih bs

def after (p : α → β → StateM σ Bool) (s : σ) (pairs : List (α × β)) : σ :=
  pairs.foldl (fun s ab => (p ab.1 ab.2 s).2) s

/-- Asked about `pairs` in order, `p` says no at position `i`. -/
def Refuses (p : α → β → StateM σ Bool) (s : σ) (pairs : List (α × β)) (i : Nat) : Prop :=
  ∃ ab, pairs[i]? = some ab ∧ (p ab.1 ab.2 (after p s (pairs.take i))).1 = false

section Asking

variable {p : α → β → StateM σ Bool} {s : σ} {ab : α × β} {pairs : List (α × β)} {i : Nat}

theorem bind_apply {γ δ : Type} (x : StateM σ γ) (g : γ → StateM σ δ) (s : σ) :
    (x >>= g) s = g (x s).1 (x s).2 := rfl

theorem allM_cons_apply {γ : Type} (q : γ → StateM σ Bool) (x : γ) (xs : List γ) (s : σ) :
    (x :: xs).allM q s = if (q x s).1 then xs.allM q (q x s).2 else (false, (q x s).2) := by
  rw [List.allM, bind_apply]
  cases (q x s).1 <;> rfl

theorem refuses_zero : Refuses p s (ab :: pairs) 0 ↔ (p ab.1 ab.2 s).1 = false := by
  simp [Refuses, after]

theorem refuses_succ : Refuses p s (ab :: pairs) (i + 1) ↔ Refuses p (p ab.1 ab.2 s).2 pairs i := by
  simp [Refuses, after]

theorem allM_of_refuses (h : Refuses p s pairs i) (hfirst : ∀ j < i, ¬Refuses p s pairs j) :
    pairs.allM (fun ab => p ab.1 ab.2) s = (false, after p s (pairs.take (i + 1))) := by
  induction pairs generalizing s i with
  | nil =>
    obtain ⟨ab, hab, -⟩ := h
    simp at hab
  | cons ab pairs ih =>
    cases i with
    | zero =>
      rw [refuses_zero] at h
      rw [allM_cons_apply, h]
      rfl
    | succ i =>
      have hyes : (p ab.1 ab.2 s).1 = true := by
        simpa [refuses_zero] using hfirst 0 (Nat.succ_pos i)
      have hrest := ih (refuses_succ.1 h) fun j hj hr => hfirst (j + 1) (Nat.succ_lt_succ hj) (refuses_succ.2 hr)
      rw [allM_cons_apply, hyes, if_pos rfl, hrest]
      rfl

theorem allM_of_not_refuses (h : ∀ i, ¬Refuses p s pairs i) :
    pairs.allM (fun ab => p ab.1 ab.2) s = (true, after p s pairs) := by
  induction pairs generalizing s with
  | nil => rfl
  | cons ab pairs ih =>
    have hyes : (p ab.1 ab.2 s).1 = true := by simpa [refuses_zero] using h 0
    have hrest := ih fun i hr => h (i + 1) (refuses_succ.2 hr)
    rw [allM_cons_apply, hyes, if_pos rfl, hrest]
    rfl

theorem exists_first_refusal (h : ¬∀ i, ¬Refuses p s pairs i) :
    ∃ i, Refuses p s pairs i ∧ ∀ j < i, ¬Refuses p s pairs j := by
  classical
  have hex : ∃ i, Refuses p s pairs i := by simpa using h
  exact ⟨Nat.find hex, Nat.find_spec hex, fun j => Nat.find_min hex⟩

end Asking

variable (p : α → β → StateM σ Bool) (s : σ)

theorem map_apply {γ δ : Type} (g : γ → δ) (x : StateM σ γ) : (g <$> x) s = (g (x s).1, (x s).2) := rfl

theorem agreeM_of_refuses {i : Nat} (h : Refuses p s (as.zip bs) i)
    (hfirst : ∀ j < i, ¬Refuses p s (as.zip bs) j) :
    agreeM p as bs s = (false, after p s ((as.zip bs).take (i + 1))) := by
  rw [agreeM_eq_allM_zip, map_apply, allM_of_refuses h hfirst]
  rfl

theorem agreeM_of_not_refuses (h : ∀ i, ¬Refuses p s (as.zip bs) i) :
    agreeM p as bs s = (decide (as.length = bs.length), after p s (as.zip bs)) := by
  rw [agreeM_eq_allM_zip, map_apply, allM_of_not_refuses h, Bool.true_and]

theorem agreeM_eq_true_iff :
    (agreeM p as bs s).1 = true ↔ as.length = bs.length ∧ ∀ i, ¬Refuses p s (as.zip bs) i := by
  by_cases h : ∀ i, ¬Refuses p s (as.zip bs) i
  · rw [agreeM_of_not_refuses as bs p s h]
    simp [h]
  · obtain ⟨i, hi, hfirst⟩ := exists_first_refusal h
    rw [agreeM_of_refuses as bs p s hi hfirst]
    simp [h]

section Pure

variable {as bs} (p : α → β → Bool) {pairs asked : List (α × β)} {i : Nat}

def Passes (as : List α) (bs : List β) (i : Nat) : Prop :=
  ∀ a b, as[i]? = some a → bs[i]? = some b → p a b = true

theorem after_asking : after (asking p) asked pairs = asked ++ pairs := by
  induction pairs generalizing asked with
  | nil => simp [after]
  | cons ab pairs ih =>
    have hrest := @ih (asked ++ [ab])
    rw [List.append_assoc, List.singleton_append] at hrest
    exact hrest

theorem refuses_asking_iff : Refuses (asking p) asked (as.zip bs) i ↔ ¬Passes p as bs i := by
  simp only [Refuses, Passes, asking, Prod.exists, List.getElem?_zip_eq_some]
  grind

theorem agree_eq_true_iff :
    agree p as bs = true ↔ as.length = bs.length ∧ ∀ i, Passes p as bs i := by
  rw [← agreeAsking_fst, agreeAsking, agreeM_eq_true_iff]
  simp only [refuses_asking_iff, not_not]

theorem asked_of_not_passes (h : ¬Passes p as bs i) (hfirst : ∀ j < i, Passes p as bs j) :
    (agreeAsking p as bs).2 = (as.zip bs).take (i + 1) := by
  have hrefused : Refuses (asking p) [] (as.zip bs) i := (refuses_asking_iff p).2 h
  have hearlier : ∀ j < i, ¬Refuses (asking p) [] (as.zip bs) j := by
    intro j hj hr
    exact (refuses_asking_iff p).1 hr (hfirst j hj)
  rw [agreeAsking, agreeM_of_refuses as bs _ _ hrefused hearlier, after_asking, List.nil_append]

theorem asked_of_passes (h : ∀ i, Passes p as bs i) : (agreeAsking p as bs).2 = as.zip bs := by
  have hnone : ∀ i, ¬Refuses (asking p) [] (as.zip bs) i := by
    intro i hr
    exact (refuses_asking_iff p).1 hr (h i)
  rw [agreeAsking, agreeM_of_not_refuses as bs _ _ hnone, after_asking, List.nil_append]

end Pure

theorem aligned_and_asked_in_order (as : List α) (bs : List β) :
    (align as bs).length = max as.length bs.length ∧
    (∀ (i : Nat) (slot : Slot α β), (align as bs)[i]? = some slot →
      (slot.isBoth = true ↔ i < min as.length bs.length)) ∧
    ((∀ slot ∈ (align as bs).drop (min as.length bs.length), ∃ a, slot = .left a) ∨
      ∀ slot ∈ (align as bs).drop (min as.length bs.length), ∃ b, slot = .right b) ∧
    (align as bs).filterMap Slot.left? = as ∧ (align as bs).filterMap Slot.right? = bs ∧
    (∀ p : α → β → Bool,
      (agree p as bs = true ↔ as.length = bs.length ∧ ∀ i, Passes p as bs i) ∧
      (agreeAsking p as bs).1 = agree p as bs ∧
      (∀ i, ¬Passes p as bs i → (∀ j < i, Passes p as bs j) →
        (agreeAsking p as bs).2 = (as.zip bs).take (i + 1)) ∧
      ((∀ i, Passes p as bs i) →
        (agreeAsking p as bs).2 = as.zip bs ∧ (as.zip bs).length = min as.length bs.length)) ∧
    ∀ (σ : Type) (p : α → β → StateM σ Bool) (s : σ),
      ((agreeM p as bs s).1 = true ↔ as.length = bs.length ∧ ∀ i, ¬Refuses p s (as.zip bs) i) ∧
      (∀ i, Refuses p s (as.zip bs) i → (∀ j < i, ¬Refuses p s (as.zip bs) j) →
        (agreeM p as bs s).2 = after p s ((as.zip bs).take (i + 1))) ∧
      ((∀ i, ¬Refuses p s (as.zip bs) i) → (agreeM p as bs s).2 = after p s (as.zip bs)) := by
  refine ⟨length_align as bs, fun _ _ => isBoth_align_iff as bs, tail_align as bs, filterMap_left?_align as bs,
    filterMap_right?_align as bs, fun p => ?_, fun σ p s => ?_⟩
  · exact ⟨agree_eq_true_iff p, agreeAsking_fst p as bs, fun _ => asked_of_not_passes p,
      fun h => ⟨asked_of_passes p h, List.length_zip⟩⟩
  · refine ⟨agreeM_eq_true_iff as bs p s, fun i h hfirst => ?_, fun h => ?_⟩
    · rw [agreeM_of_refuses as bs p s h hfirst]
    · rw [agreeM_of_not_refuses as bs p s h]

/-- Allows one unequal pair and counts the pairs it is asked about. -/
def forgiving (a b : Nat) : StateM (Bool × Nat) Bool := fun (spent, asked) =>
  (a = b || !spent, (spent || a ≠ b, asked + 1))

theorem uneven_lists_asked_to_refusal :
    (agreeAsking (fun a b : Nat => a == b) [1, 2, 3, 4] [1, 7, 3]).2 = [(1, 1), (2, 7)] ∧
    (agreeM forgiving [1, 2, 3, 4] [1, 7, 8] (false, 0)).2 = (true, 3) ∧
    (align [1, 2, 3, 4] [1, 7, 8]).filterMap Slot.right? = [1, 7, 8] := by
  refine ⟨?_, ?_, (aligned_and_asked_in_order [1, 2, 3, 4] [1, 7, 8]).2.2.2.2.1⟩
  · have hfail : ¬Passes (fun a b : Nat => a == b) [1, 2, 3, 4] [1, 7, 3] 1 := by
      intro h
      cases h 2 7 rfl rfl
    have hpass : ∀ j < 1, Passes (fun a b : Nat => a == b) [1, 2, 3, 4] [1, 7, 3] j := by
      intro j hj a b ha hb
      obtain rfl : j = 0 := by omega
      cases ha
      cases hb
      rfl
    exact ((aligned_and_asked_in_order [1, 2, 3, 4] [1, 7, 3]).2.2.2.2.2.1 _).2.2.1 1 hfail hpass
  · have hfail : Refuses forgiving (false, 0) ([1, 2, 3, 4].zip [1, 7, 8]) 2 := ⟨(3, 8), rfl, rfl⟩
    have hpass : ∀ j < 2, ¬Refuses forgiving (false, 0) ([1, 2, 3, 4].zip [1, 7, 8]) j := by
      rintro j hj ⟨ab, hab, hno⟩
      match j, hj with
      | 0, _ => cases hab; cases hno
      | 1, _ => cases hab; cases hno
    exact ((aligned_and_asked_in_order [1, 2, 3, 4] [1, 7, 8]).2.2.2.2.2.2 _ forgiving _).2.1 2 hfail hpass

end Lockstep

end CollationLint
