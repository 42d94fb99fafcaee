import CollationLint.Proofs.History

namespace CollationLint.LoadedType

theorem rankRec {motive : LoadedType → Prop}
    (step : ∀ t, (∀ s : LoadedType, s.rank < t.rank → motive s) → motive t) (t : LoadedType) : motive t :=
  (measure rank).wf.induction t step

section Visit

variable {t : LoadedType} {found result : List LoadedType}

def visit (found : List LoadedType) (t : LoadedType) : List LoadedType :=
  if found.contains t then found
  else t.interfaces.attach.foldl (fun found i => visit found i.1) (found ++ [t])
termination_by t.rank
decreasing_by exact rank_interfaces_lt i.2

theorem visit_eq (found : List LoadedType) (t : LoadedType) :
    visit found t = if found.contains t then found else t.interfaces.foldl visit (found ++ [t]) := by
  rw [visit, List.foldl_attach]

theorem search_eq_foldl_visit (found pending : List LoadedType) :
    search found pending = pending.foldl visit found := by
  fun_induction search found pending with
  | case1 found => rfl
  | case2 found t pending hc ih => rw [ih, List.foldl_cons, visit_eq, if_pos hc]
  | case3 found t pending hc ih => rw [ih, List.foldl_append, List.foldl_cons, visit_eq found t, if_neg hc]

structure Explores (found result : List LoadedType) : Prop where
  keeps : ∀ x ∈ found, x ∈ result
  closed : ∀ x ∈ result, x ∉ found → ∀ i ∈ x.interfaces, result.contains i = true

theorem contains_of_subset (h : ∀ x ∈ found, x ∈ result) (hc : found.contains t = true) :
    result.contains t = true := by
  obtain ⟨s, hs, hid⟩ := contains_iff.1 hc
  exact contains_iff.2 ⟨s, h s hs, hid⟩

theorem Explores.trans {mid : List LoadedType} (h : Explores found mid) (h' : Explores mid result) :
    Explores found result where
  keeps x hx := h'.keeps x (h.keeps x hx)
  closed x hx hf i hi := by
    by_cases hm : x ∈ mid
    · exact contains_of_subset h'.keeps (h.closed x hm hf i hi)
    · exact h'.closed x hx hm i hi

theorem explores_foldl {ts : List LoadedType}
    (h : ∀ t ∈ ts, ∀ found, Explores found (visit found t) ∧ (visit found t).contains t = true)
    (found : List LoadedType) :
    Explores found (ts.foldl visit found) ∧ ∀ t ∈ ts, (ts.foldl visit found).contains t = true := by
  induction ts generalizing found with
  | nil => exact ⟨⟨fun _ hx => hx, fun _ hx hf => absurd hx hf⟩, nofun⟩
  | cons t ts ih =>
    obtain ⟨hfirst, hct⟩ := h t List.mem_cons_self found
    obtain ⟨hrest, hcs⟩ := ih (fun s hs => h s (List.mem_cons_of_mem t hs)) (visit found t)
    refine ⟨hfirst.trans hrest, fun s hs => ?_⟩
    rcases List.mem_cons.1 hs with rfl | hs
    · exact contains_of_subset hrest.keeps hct
    · exact hcs s hs

theorem explores_visit (found : List LoadedType) (t : LoadedType) :
    Explores found (visit found t) ∧ (visit found t).contains t = true := by
  induction t using rankRec generalizing found with
  | step t ih =>
    rw [visit_eq]
    split
    · next hc => exact ⟨⟨fun _ hx => hx, fun _ hx hf => absurd hx hf⟩, hc⟩
    · obtain ⟨hex, hall⟩ := explores_foldl
        (fun i hi found => ih i (rank_interfaces_lt hi) found) (found ++ [t])
      have hmem : t ∈ t.interfaces.foldl visit (found ++ [t]) := hex.keeps t (by simp)
      refine ⟨⟨fun x hx => hex.keeps x (by simp [hx]), fun x hx hf i hi => ?_⟩,
        contains_iff.2 ⟨t, hmem, rfl⟩⟩
      by_cases hxt : x ∈ found ++ [t]
      · rcases List.mem_append.1 hxt with hx | hx
        · exact absurd hx hf
        · rw [List.mem_singleton.1 hx] at hi
          exact hall i hi
      · exact hex.closed x hx hxt i hi

theorem of_mem_foldl_visit {P : LoadedType → Prop} {ts : List LoadedType}
    (h : ∀ t ∈ ts, ∀ found, (∀ s ∈ visit found t, P s → ∀ i ∈ s.interfaces, P i) →
      (∀ x ∈ found, P x) → P t → ∀ x ∈ visit found t, P x)
    (hP : ∀ s ∈ ts.foldl visit found, P s → ∀ i ∈ s.interfaces, P i)
    (hf : ∀ x ∈ found, P x) (ht : ∀ t ∈ ts, P t) : ∀ x ∈ ts.foldl visit found, P x := by
  induction ts generalizing found with
  | nil => exact hf
  | cons t ts ih =>
    have hkeeps := (explores_foldl (fun s (_ : s ∈ ts) found => explores_visit found s) (visit found t)).1.keeps
    apply ih (fun s hs => h s (List.mem_cons_of_mem t hs)) hP
    · apply h t List.mem_cons_self found _ hf (ht t List.mem_cons_self)
      intro s hs
      exact hP s (hkeeps s hs)
    · intro s hs
      exact ht s (List.mem_cons_of_mem t hs)

theorem of_mem_visit {P : LoadedType → Prop} (hP : ∀ s ∈ visit found t, P s → ∀ i ∈ s.interfaces, P i)
    (hf : ∀ x ∈ found, P x) (ht : P t) : ∀ x ∈ visit found t, P x := by
  induction t using rankRec generalizing found with
  | step t ih =>
    rw [visit_eq] at hP ⊢
    split at hP
    · next hc => rwa [if_pos hc]
    · next hc =>
      rw [if_neg hc]
      have hmem : t ∈ t.interfaces.foldl visit (found ++ [t]) :=
        (explores_foldl (fun i (_ : i ∈ t.interfaces) found => explores_visit found i) _).1.keeps t (by simp)
      apply of_mem_foldl_visit _ hP _ (hP t hmem ht)
      · intro i hi found hP hf hi'
        exact ih i (rank_interfaces_lt hi) hP hf hi'
      · intro x hx
        rcases List.mem_append.1 hx with hx | hx
        · exact hf x hx
        · rwa [List.mem_singleton.1 hx]

end Visit

section Bases

variable {t : LoadedType}

theorem mem_baseTypes_iff {b : LoadedType} :
    b ∈ t.baseTypes ↔ b = t ∨ ∃ c, t.base? = some c ∧ b ∈ c.baseTypes := by
  rw [baseTypes, List.mem_cons]
  apply or_congr Iff.rfl
  split <;> simp_all

theorem baseTypes_of_none (h : t.base? = none) : t.baseTypes = [t] := by
  rw [baseTypes]
  split <;> simp_all

theorem baseTypes_of_some {b : LoadedType} (h : t.base? = some b) : t.baseTypes = t :: b.baseTypes := by
  rw [baseTypes]
  split <;> simp_all

theorem mem_baseTypes_self (t : LoadedType) : t ∈ t.baseTypes := mem_baseTypes_iff.2 (.inl rfl)

theorem mem_baseTypes_iff_tail {b : LoadedType} : b ∈ t.baseTypes ↔ b = t ∨ b ∈ t.baseTypes.tail := by
  obtain ⟨rest, hrest⟩ := t.exists_baseTypes_eq_cons
  rw [hrest, List.mem_cons, List.tail_cons]

theorem exists_base?_of_mem_tail {b : LoadedType} (hb : b ∈ t.baseTypes.tail) :
    ∃ c ∈ t.baseTypes, c.base? = some b := by
  induction t using rankRec with
  | step t ih =>
    cases ht : t.base? with
    | none =>
      rw [baseTypes_of_none ht] at hb
      cases hb
    | some p =>
      rw [baseTypes_of_some ht, List.tail_cons] at hb
      rcases mem_baseTypes_iff_tail.1 hb with rfl | hb
      · exact ⟨t, mem_baseTypes_self t, ht⟩
      · obtain ⟨c, hc, hcb⟩ := ih p (rank_base?_lt ht) hb
        exact ⟨c, mem_baseTypes_iff.2 (.inr ⟨p, ht, hc⟩), hcb⟩

theorem of_mem_baseTypes {P : LoadedType → Prop} (hP : ∀ s, P s → ∀ b, s.base? = some b → P b)
    (ht : P t) : ∀ b ∈ t.baseTypes, P b := by
  induction t using rankRec with
  | step t ih =>
    intro b hb
    rcases mem_baseTypes_iff.1 hb with rfl | ⟨c, hc, hb⟩
    · exact ht
    · exact ih c (rank_base?_lt hc) (hP t ht c hc) b hb

theorem mem_baseTypes_of_base? {t b c : LoadedType} (hb : b ∈ t.baseTypes) (hc : b.base? = some c) :
    c ∈ t.baseTypes := by
  have hsub : ∀ x ∈ b.baseTypes, x ∈ t.baseTypes := by
    apply of_mem_baseTypes (P := fun s => ∀ x ∈ s.baseTypes, x ∈ t.baseTypes) _ (fun _ hx => hx) b hb
    intro s hs p hp x hx
    exact hs x (mem_baseTypes_iff.2 (.inr ⟨p, hp, hx⟩))
  exact hsub c (mem_baseTypes_iff.2 (.inr ⟨c, hc, mem_baseTypes_self c⟩))

end Bases

section AllInterfaces

variable {t : LoadedType}

theorem explores_allInterfaces (t : LoadedType) : Explores [] t.allInterfaces ∧
    ∀ i ∈ t.baseTypes.flatMap interfaces, t.allInterfaces.contains i = true := by
  rw [allInterfaces, search_eq_foldl_visit]
  exact explores_foldl (fun s _ found => explores_visit found s) []

theorem contains_allInterfaces_of_declared {b i : LoadedType} (hb : b ∈ t.baseTypes) (hi : i ∈ b.interfaces) :
    t.allInterfaces.contains i = true :=
  t.explores_allInterfaces.2 i (List.mem_flatMap.2 ⟨b, hb, hi⟩)

theorem contains_allInterfaces_of_extended {i j : LoadedType} (hi : i ∈ t.allInterfaces)
    (hj : j ∈ i.interfaces) : t.allInterfaces.contains j = true :=
  t.explores_allInterfaces.1.closed i hi (by simp) j hj

theorem of_mem_allInterfaces {P : LoadedType → Prop} (hbase : ∀ b ∈ t.baseTypes, ∀ i ∈ b.interfaces, P i)
    (hP : ∀ s ∈ t.allInterfaces, P s → ∀ i ∈ s.interfaces, P i) : ∀ i ∈ t.allInterfaces, P i := by
  rw [allInterfaces, search_eq_foldl_visit] at hP ⊢
  apply of_mem_foldl_visit (fun _ _ _ hP hf ht => of_mem_visit hP hf ht) hP (by simp)
  intro i hi
  obtain ⟨b, hb, hi⟩ := List.mem_flatMap.1 hi
  exact hbase b hb i hi

end AllInterfaces

inductive Implements (t : LoadedType) : LoadedType → Prop
  | declared {b i : LoadedType} (hb : b ∈ t.baseTypes) (hi : i ∈ b.interfaces) : Implements t i
  | extended {i j : LoadedType} (hi : Implements t i) (hj : j ∈ i.interfaces) : Implements t j

variable {t : LoadedType}

theorem Implements.of_parents {P : LoadedType → Prop} (hbase : ∀ b ∈ t.baseTypes, P b)
    (hP : ∀ s, P s → ∀ i ∈ s.interfaces, P i) {i : LoadedType} (hi : t.Implements i) : P i := by
  induction hi with
  | declared hb hi => exact hP _ (hbase _ hb) _ hi
  | extended _ hj ih => exact hP _ ih _ hj

theorem implements_of_mem_allInterfaces {i : LoadedType} (hi : i ∈ t.allInterfaces) : t.Implements i :=
  of_mem_allInterfaces (fun _ hb _ hi => .declared hb hi) (fun _ _ hs _ hi => .extended hs hi) i hi

structure Mirrors (f : LoadedType → LoadedType) (t s : LoadedType) : Prop where
  base : s.base? = t.base?.map f
  interfaces : s.interfaces = t.interfaces.map f

section Mirrors

variable {f : LoadedType → LoadedType} {s : LoadedType} (hm : Mirrors f t s)
  (hbase : ∀ b ∈ t.baseTypes, ∀ c, b.base? = some c → Mirrors f c (f c))
include hbase

theorem Mirrors.of_mem_tail : ∀ b ∈ t.baseTypes.tail, b ∈ t.baseTypes ∧ Mirrors f b (f b) := by
  intro b hb
  obtain ⟨c, hc, hcb⟩ := exists_base?_of_mem_tail hb
  exact ⟨List.mem_of_mem_tail hb, hbase c hc b hcb⟩

include hm

theorem Mirrors.baseTypes_eq : s.baseTypes = s :: t.baseTypes.tail.map f := by
  induction t using rankRec generalizing s with
  | step t ih =>
    cases ht : t.base? with
    | none =>
      have hs : s.base? = none := by rw [hm.base, ht, Option.map_none]
      rw [baseTypes_of_none hs, baseTypes_of_none ht, List.tail_cons, List.map_nil]
    | some p =>
      have hs : s.base? = some (f p) := by rw [hm.base, ht, Option.map_some]
      have hp : Mirrors f p (f p) := hbase t (mem_baseTypes_self t) p ht
      obtain ⟨rest, hrest⟩ := p.exists_baseTypes_eq_cons
      rw [baseTypes_of_some hs, baseTypes_of_some ht, List.tail_cons,
        ih p (rank_base?_lt ht) hp fun b hb => hbase b (mem_baseTypes_iff.2 (.inr ⟨p, ht, hb⟩)), hrest,
        List.tail_cons, List.map_cons]

theorem Mirrors.baseTypes :
    (∀ c ∈ s.baseTypes, ∃ b ∈ t.baseTypes, Mirrors f b c) ∧
      ∀ b ∈ t.baseTypes, ∃ c ∈ s.baseTypes, Mirrors f b c := by
  have htail := Mirrors.of_mem_tail hbase
  rw [hm.baseTypes_eq hbase]
  constructor
  · intro c hc
    rcases List.mem_cons.1 hc with rfl | hc
    · exact ⟨t, mem_baseTypes_self t, hm⟩
    · obtain ⟨b, hb, rfl⟩ := List.mem_map.1 hc
      exact ⟨b, htail b hb⟩
  · intro b hb
    rcases mem_baseTypes_iff_tail.1 hb with rfl | hb
    · exact ⟨s, List.mem_cons_self, hm⟩
    · exact ⟨f b, List.mem_cons_of_mem s (List.mem_map_of_mem hb), (htail b hb).2⟩

theorem Mirrors.flatMap_interfaces :
    s.baseTypes.flatMap LoadedType.interfaces = (t.baseTypes.flatMap LoadedType.interfaces).map f := by
  obtain ⟨rest, hrest⟩ := t.exists_baseTypes_eq_cons
  have htail := Mirrors.of_mem_tail hbase
  rw [hm.baseTypes_eq hbase, hrest, List.tail_cons, List.flatMap_cons, List.flatMap_cons, List.map_append,
    hm.interfaces, List.flatMap_map, List.map_flatMap]
  congr 1
  apply List.flatMap_congr
  intro b hb
  exact (htail b (by rwa [hrest, List.tail_cons])).2.interfaces

theorem Mirrors.implements_iff (hi : ∀ i, t.Implements i → Mirrors f i (f i)) {j : LoadedType} :
    s.Implements j ↔ ∃ i, t.Implements i ∧ f i = j := by
  obtain ⟨hdown, hup⟩ := hm.baseTypes hbase
  constructor
  · intro hj
    induction hj with
    | @declared c j hc hj =>
      obtain ⟨b, hb, hbc⟩ := hdown c hc
      rw [hbc.interfaces] at hj
      obtain ⟨i, him, rfl⟩ := List.mem_map.1 hj
      exact ⟨i, .declared hb him, rfl⟩
    | extended _ hk ih =>
      obtain ⟨i, hti, rfl⟩ := ih
      rw [(hi i hti).interfaces] at hk
      obtain ⟨k, hki, rfl⟩ := List.mem_map.1 hk
      exact ⟨k, .extended hti hki, rfl⟩
  · rintro ⟨i, hti, rfl⟩
    induction hti with
    | @declared b i hb him =>
      obtain ⟨c, hc, hbc⟩ := hup b hb
      exact .declared hc (hbc.interfaces ▸ List.mem_map_of_mem him)
    | @extended i k hti hk ih =>
      exact .extended ih ((hi i hti).interfaces ▸ List.mem_map_of_mem hk)

end Mirrors

structure SameParents (s t : LoadedType) : Prop where
  base : s.base?.map identity = t.base?.map identity
  interfaces : ∀ x, x ∈ s.interfaces.map identity ↔ x ∈ t.interfaces.map identity

theorem SameParents.exists_interface {s : LoadedType} (h : s.SameParents t) {i : LoadedType}
    (hi : i ∈ s.interfaces) : ∃ j ∈ t.interfaces, j.identity = i.identity :=
  List.mem_map.1 ((h.interfaces _).1 (List.mem_map_of_mem hi))

def Coherent (P : LoadedType → Prop) : Prop :=
  ∀ {s t : LoadedType}, P s → P t → (s == t) = true → s.SameParents t

section Coherent

variable {P : LoadedType → Prop} (hc : Coherent P)
include hc

theorem contains_allInterfaces_iff (hP : ∀ i, t.Implements i → P i) {a : LoadedType} :
    t.allInterfaces.contains a = true ↔ ∃ i, t.Implements i ∧ i.identity = a.identity := by
  rw [contains_iff]
  constructor
  · rintro ⟨i, hi, hid⟩
    exact ⟨i, implements_of_mem_allInterfaces hi, hid⟩
  rintro ⟨i, hi, hid⟩
  rw [← hid, ← contains_iff]
  clear hid
  induction hi with
  | declared hb hi => exact contains_allInterfaces_of_declared hb hi
  | @extended i j hi hj ih =>
    -- whatever stands for `i` among those found extends the same interfaces
    obtain ⟨r, hr, hid⟩ := contains_iff.1 ih
    have hsame := hc (hP i hi) (hP r (implements_of_mem_allInterfaces hr)) (beq_iff.2 hid.symm)
    obtain ⟨k, hk, hkj⟩ := hsame.exists_interface hj
    obtain ⟨x, hx, hxk⟩ := contains_iff.1 (contains_allInterfaces_of_extended hr hk)
    exact contains_iff.2 ⟨x, hx, hxk.trans hkj⟩

variable (hbase : ∀ s, P s → ∀ b, s.base? = some b → P b)
include hbase

theorem exists_mem_baseTypes_of_identity {s : LoadedType} (hs : P s) (ht : P t)
    (hid : s.identity = t.identity) {b : LoadedType} (hb : b ∈ s.baseTypes) :
    ∃ c ∈ t.baseTypes, c.identity = b.identity := by
  induction s using rankRec generalizing t with
  | step s ih =>
    rcases mem_baseTypes_iff.1 hb with rfl | ⟨c, hsc, hb⟩
    · exact ⟨t, mem_baseTypes_self t, hid.symm⟩
    · have hsame := (hc hs ht (beq_iff.2 hid)).base
      rw [hsc, Option.map_some] at hsame
      obtain ⟨d, htd, hdc⟩ := Option.map_eq_some_iff.1 hsame.symm
      obtain ⟨e, he, heb⟩ := ih c (rank_base?_lt hsc) (hbase s hs c hsc) (hbase t ht d htd) hdc.symm hb
      exact ⟨e, mem_baseTypes_iff.2 (.inr ⟨d, htd, he⟩), heb⟩

theorem Implements.exists_of_identity (hinterface : ∀ s, P s → ∀ i ∈ s.interfaces, P i)
    {s : LoadedType} (hs : P s) (ht : P t)
    (hid : s.identity = t.identity) {i : LoadedType} (hi : s.Implements i) :
    ∃ j, t.Implements j ∧ j.identity = i.identity := by
  have member {r : LoadedType} (hr : P r) {i : LoadedType} (hi : r.Implements i) : P i :=
    hi.of_parents (of_mem_baseTypes hbase hr) hinterface
  induction hi with
  | @declared b i hb hi =>
    obtain ⟨c, hcb, hid⟩ := exists_mem_baseTypes_of_identity hc hbase hs ht hid hb
    have hsame := hc (of_mem_baseTypes hbase hs b hb) (of_mem_baseTypes hbase ht c hcb) (beq_iff.2 hid.symm)
    obtain ⟨j, hj, hji⟩ := hsame.exists_interface hi
    exact ⟨j, .declared hcb hj, hji⟩
  | @extended i j hi hj ih =>
    obtain ⟨k, hk, hki⟩ := ih
    obtain ⟨l, hl, hlj⟩ := (hc (member hs hi) (member ht hk) (beq_iff.2 hki.symm)).exists_interface hj
    exact ⟨l, .extended hk hl, hlj⟩

end Coherent

end CollationLint.LoadedType
