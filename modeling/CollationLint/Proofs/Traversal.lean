import CollationLint.Proofs.Obtainable
import Mathlib.Logic.Relation

namespace CollationLint

namespace LoadedType

variable {s t x : LoadedType} {found l m : List LoadedType}

theorem contains_congr (h : s.identity = t.identity) : l.contains s = l.contains t := by
  rw [Bool.eq_iff_iff, contains_iff, contains_iff, h]

section FirstOccurrences

def appendNew (found l : List LoadedType) : List LoadedType :=
  l.foldl (fun found t => if found.contains t then found else found ++ [t]) found

theorem appendNew_append : appendNew found (l ++ m) = appendNew (appendNew found l) m :=
  List.foldl_append

theorem appendNew_cons_of_contains (h : found.contains t = true) :
    appendNew found (t :: l) = appendNew found l := by
  rw [appendNew, List.foldl_cons, if_pos h, appendNew]

theorem appendNew_cons_of_new (h : ¬found.contains t = true) :
    appendNew found (t :: l) = appendNew (found ++ [t]) l := by
  rw [appendNew, List.foldl_cons, if_neg h, appendNew]

theorem contains_appendNew :
    (appendNew found l).contains x = true ↔ found.contains x = true ∨ l.contains x = true := by
  induction l generalizing found with
  | nil => simp [appendNew]
  | cons t l ih =>
    by_cases h : found.contains t = true
    · rw [appendNew_cons_of_contains h, ih, List.contains_cons, Bool.or_eq_true]
      constructor
      · tauto
      · rintro (hx | hx | hx)
        · exact .inl hx
        · rw [contains_congr (beq_iff.1 hx)]
          exact .inl h
        · exact .inr hx
    · rw [appendNew_cons_of_new h, ih, List.contains_append, List.contains_cons, List.contains_cons,
        List.contains_nil, Bool.or_false, Bool.or_eq_true, Bool.or_eq_true, or_assoc]

theorem appendNew_of_contains (h : ∀ t ∈ l, found.contains t = true) : appendNew found l = found := by
  induction l with
  | nil => rfl
  | cons t l ih =>
    rw [appendNew_cons_of_contains (h t List.mem_cons_self)]
    exact ih fun s hs => h s (List.mem_cons_of_mem t hs)

theorem eraseDups_eq_appendNew (l : List LoadedType) : l.eraseDups = appendNew [] l := by
  have hloop (l found : List LoadedType) :
      List.eraseDupsBy.loop (· == ·) l found = appendNew found.reverse l := by
    induction l generalizing found with
    | nil => rfl
    | cons t l ih =>
      have hany : found.any (t == ·) = found.reverse.contains t := by
        rw [List.contains_reverse, List.contains_eq_any_beq]
      rw [List.eraseDupsBy.loop, hany]
      cases h : found.reverse.contains t with
      | true => rw [appendNew_cons_of_contains h, ← ih]
      | false => rw [appendNew_cons_of_new (by simp [h]), ← List.reverse_cons, ← ih]
  exact hloop l []

theorem eraseDups_map_eraseDups {f : LoadedType → LoadedType}
    (hf : ∀ s ∈ l, ∀ t ∈ l, s.identity = t.identity → (f s).identity = (f t).identity) :
    (l.eraseDups.map f).eraseDups = (l.map f).eraseDups := by
  suffices h : ∀ rest found, (∀ s ∈ found ++ rest, s ∈ l) →
      appendNew [] ((appendNew found rest).map f) = appendNew (appendNew [] (found.map f)) (rest.map f) by
    rw [eraseDups_eq_appendNew, eraseDups_eq_appendNew, eraseDups_eq_appendNew]
    exact h l [] fun _ hs => hs
  intro rest
  induction rest with
  | nil => exact fun _ _ => rfl
  | cons t rest ih =>
    intro found hl
    rw [List.map_cons]
    by_cases h : found.contains t = true
    · obtain ⟨s, hs, hid⟩ := contains_iff.1 h
      have hft : (appendNew [] (found.map f)).contains (f t) = true := by
        apply contains_appendNew.2
        refine .inr (contains_iff.2 ⟨f s, List.mem_map_of_mem hs, ?_⟩)
        exact hf s (hl s (by simp [hs])) t (hl t (by simp)) hid
      rw [appendNew_cons_of_contains h, appendNew_cons_of_contains hft]
      exact ih found fun s hs => hl s (by simp at hs ⊢; tauto)
    · rw [appendNew_cons_of_new h, ih (found ++ [t]) fun s hs => hl s (by simpa using hs),
        List.map_append, appendNew_append, List.map_singleton, ← appendNew_append, List.singleton_append]

end FirstOccurrences

structure RespectsIdentity (r : LoadedType → LoadedType → Prop) (P : LoadedType → Prop) : Prop where
  closed : ∀ {s x}, P s → r s x → P x
  matched : ∀ {s t x}, P s → P t → s.identity = t.identity → r s x → ∃ y, r t y ∧ y.identity = x.identity

section RespectsIdentity

variable {r : LoadedType → LoadedType → Prop} {P : LoadedType → Prop} (h : RespectsIdentity r P)
include h

theorem RespectsIdentity.reach (hs : P s) (ht : P t) (hid : s.identity = t.identity)
    (hx : Relation.ReflTransGen r s x) :
    P x ∧ ∃ y, Relation.ReflTransGen r t y ∧ P y ∧ y.identity = x.identity := by
  induction hx with
  | refl => exact ⟨hs, t, .refl, ht, hid.symm⟩
  | tail _ hx ih =>
    obtain ⟨hb, c, htc, hc, hcb⟩ := ih
    obtain ⟨y, hy, hyx⟩ := h.matched hb hc hcb.symm hx
    exact ⟨h.closed hb hx, y, htc.tail hy, h.closed hc hy, hyx⟩

/-- Nothing leads back to where it started: a way round could be walked again from its end, and so on
for ever, while the rank goes down. -/
theorem RespectsIdentity.identity_ne (hr : ∀ s x, r s x → x.rank < s.rank) (hs : P s)
    (hx : Relation.TransGen r s x) : x.identity ≠ s.identity := by
  induction s using rankRec generalizing x with
  | step s ih =>
    intro hid
    have hrank : x.rank < s.rank := by
      clear hid
      induction hx with
      | single hx => exact hr s _ hx
      | tail _ hx ih => exact Nat.lt_trans (hr _ _ hx) ih
    obtain ⟨y, hy, hyx⟩ := Relation.TransGen.head'_iff.1 hx
    have hPx := (h.reach hs hs rfl hx.to_reflTransGen).1
    obtain ⟨z, hz, hzy⟩ := h.matched hs hPx hid.symm hy
    obtain ⟨-, w, hw, -, hwx⟩ := h.reach (h.closed hs hy) (h.closed hPx hz) hzy.symm hyx
    exact ih x hrank hPx (.head' hz hw) hwx

end RespectsIdentity

section Preorder

def Declares (t i : LoadedType) : Prop := i ∈ t.interfaces

theorem rank_lt_of_declares (h : t.Declares s) : s.rank < t.rank := rank_interfaces_lt h

def preorder (t : LoadedType) : List LoadedType :=
  t :: t.interfaces.attach.flatMap fun i => preorder i.1
termination_by t.rank
decreasing_by exact rank_interfaces_lt i.2

theorem preorder_eq (t : LoadedType) : t.preorder = t :: t.interfaces.flatMap preorder := by
  rw [preorder, List.flatMap_subtype fun _ _ => rfl, List.unattach_attach]

theorem mem_preorder_iff : s ∈ t.preorder ↔ Relation.ReflTransGen Declares t s := by
  induction t using rankRec with
  | step t ih =>
    rw [preorder_eq, List.mem_cons, List.mem_flatMap, Relation.ReflTransGen.cases_head_iff, eq_comm]
    apply or_congr Iff.rfl
    constructor
    · rintro ⟨i, hi, hs⟩
      exact ⟨i, hi, (ih i (rank_interfaces_lt hi)).1 hs⟩
    · rintro ⟨i, hi, hs⟩
      exact ⟨i, hi, (ih i (rank_interfaces_lt hi)).2 hs⟩

theorem preorder_map {f : LoadedType → LoadedType} (h : ∀ s ∈ t.preorder, Mirrors f s (f s)) :
    (f t).preorder = t.preorder.map f := by
  induction t using rankRec with
  | step t ih =>
    have hmem : ∀ i ∈ t.interfaces, ∀ s ∈ i.preorder, s ∈ t.preorder := by
      intro i hi s hs
      rw [preorder_eq]
      exact List.mem_cons_of_mem t (List.mem_flatMap.2 ⟨i, hi, hs⟩)
    have ht : t ∈ t.preorder := mem_preorder_iff.2 .refl
    rw [preorder_eq, preorder_eq, (h t ht).interfaces, List.map_cons, List.flatMap_map, List.map_flatMap]
    congr 1
    apply List.flatMap_congr
    intro i hi
    exact ih i (rank_interfaces_lt hi) fun s hs => h s (hmem i hi s hs)

end Preorder

section Search

variable {P : LoadedType → Prop} (h : RespectsIdentity Declares P)

/-- Whatever the walk over `t` meets of the types found has been found with all that it extends. -/
def Settled (found : List LoadedType) (t : LoadedType) : Prop :=
  ∀ y ∈ t.preorder, found.contains y = true → ∀ z ∈ y.preorder, found.contains z = true

include h

theorem Settled.appendNew (hs : P s) (ht : P t) (hst : Settled found t) :
    Settled (appendNew found s.preorder) t := by
  intro y hy hcy z hz
  rcases contains_appendNew.1 hcy with hcy | hcy
  · exact contains_appendNew.2 (.inl (hst y hy hcy z hz))
  · obtain ⟨x, hx, hxy⟩ := contains_iff.1 hcy
    have hPx := (h.reach hs hs rfl (mem_preorder_iff.1 hx)).1
    have hPy := (h.reach ht ht rfl (mem_preorder_iff.1 hy)).1
    obtain ⟨-, w, hw, -, hwz⟩ := h.reach hPy hPx hxy.symm (mem_preorder_iff.1 hz)
    refine contains_appendNew.2 (.inr (contains_iff.2 ⟨w, ?_, hwz⟩))
    exact mem_preorder_iff.2 ((mem_preorder_iff.1 hx).trans hw)

theorem foldl_visit_eq_appendNew {ts : List LoadedType}
    (hvisit : ∀ t ∈ ts, ∀ found, Settled found t → visit found t = appendNew found t.preorder)
    (hP : ∀ t ∈ ts, P t) (hsettled : ∀ t ∈ ts, Settled found t) :
    ts.foldl visit found = appendNew found (ts.flatMap preorder) := by
  induction ts generalizing found with
  | nil => rfl
  | cons t ts ih =>
    rw [List.foldl_cons, hvisit t List.mem_cons_self found (hsettled t List.mem_cons_self),
      List.flatMap_cons, appendNew_append]
    apply ih
    · exact fun s hs => hvisit s (List.mem_cons_of_mem t hs)
    · exact fun s hs => hP s (List.mem_cons_of_mem t hs)
    · intro s hs
      exact (hsettled s (List.mem_cons_of_mem t hs)).appendNew h (hP t List.mem_cons_self)
        (hP s (List.mem_cons_of_mem t hs))

theorem visit_eq_appendNew (ht : P t) (hsettled : Settled found t) :
    visit found t = appendNew found t.preorder := by
  induction t using rankRec generalizing found with
  | step t ih =>
    have hself : t ∈ t.preorder := mem_preorder_iff.2 .refl
    rw [visit_eq]
    split
    · next hc => exact (appendNew_of_contains (hsettled t hself hc)).symm
    · next hc =>
      rw [preorder_eq, appendNew_cons_of_new hc]
      apply foldl_visit_eq_appendNew h
      · intro i hi found
        exact ih i (rank_interfaces_lt hi) (h.closed ht hi)
      · exact fun i hi => h.closed ht hi
      · -- `t` itself is among the types found, but none of its interfaces leads back to it
        intro i hi y hy hcy z hz
        have hty : Relation.TransGen Declares t y := .head' hi (mem_preorder_iff.1 hy)
        have hne := h.identity_ne (fun _ _ => rank_lt_of_declares) ht hty
        rw [List.contains_append, Bool.or_eq_true] at hcy ⊢
        rcases hcy with hcy | hcy
        · exact .inl (hsettled y (mem_preorder_iff.2 hty.to_reflTransGen) hcy z hz)
        · obtain ⟨x, hx, hxy⟩ := contains_iff.1 hcy
          rw [List.mem_singleton.1 hx] at hxy
          exact absurd hxy.symm hne

theorem allInterfaces_eq_eraseDups (ht : ∀ b ∈ t.baseTypes, ∀ i ∈ b.interfaces, P i) :
    t.allInterfaces = ((t.baseTypes.flatMap interfaces).flatMap preorder).eraseDups := by
  have hP : ∀ i ∈ t.baseTypes.flatMap interfaces, P i := by
    intro i hi
    obtain ⟨b, hb, hi⟩ := List.mem_flatMap.1 hi
    exact ht b hb i hi
  rw [eraseDups_eq_appendNew, allInterfaces, search_eq_foldl_visit]
  apply foldl_visit_eq_appendNew h _ hP
  · intro i hi y hy hcy
    cases hcy
  · intro i hi found
    exact visit_eq_appendNew h (hP i hi)

end Search

section Explored

theorem pairwise_search {pending : List LoadedType} (h : found.Pairwise fun i j => (i == j) = false) :
    (search found pending).Pairwise fun i j => (i == j) = false := by
  fun_induction search found pending with
  | case1 found => exact h
  | case2 found t pending hc ih => exact ih h
  | case3 found t pending hc ih =>
    apply ih
    rw [List.pairwise_append]
    refine ⟨h, List.pairwise_singleton _ t, ?_⟩
    intro s hs x hx
    rw [List.mem_singleton.1 hx, ← Bool.not_eq_true, beq_iff]
    intro hid
    exact hc (contains_iff.2 ⟨s, hs, hid⟩)

theorem implements_iff_mem_preorder :
    t.Implements s ↔ s ∈ (t.baseTypes.flatMap interfaces).flatMap preorder := by
  simp only [List.mem_flatMap, mem_preorder_iff]
  constructor
  · intro h
    induction h with
    | declared hb hi => exact ⟨_, ⟨_, hb, hi⟩, .refl⟩
    | extended _ hj ih =>
      obtain ⟨i, hi, his⟩ := ih
      exact ⟨i, hi, his.tail hj⟩
  · rintro ⟨i, ⟨b, hb, hi⟩, his⟩
    induction his with
    | refl => exact .declared hb hi
    | tail _ hj ih => exact .extended ih hj

theorem respectsIdentity_of_interfaces
    (h : ∀ i j, t.Implements i → t.Implements j → (i == j) = true → (i.interfaces == j.interfaces) = true) :
    RespectsIdentity Declares t.Implements where
  closed hs hx := .extended hs hx
  matched {i j x} hi hj hid hx := by
    have hlists := beq_list_iff.1 (h i j hi hj (beq_iff.2 hid))
    have hmem : x.identity ∈ j.interfaces.map identity := hlists ▸ List.mem_map_of_mem hx
    exact List.mem_map.1 hmem

theorem allInterfaces_explored (t : LoadedType) :
    t.allInterfaces.Pairwise (fun i j => (i == j) = false) ∧
    (∀ i ∈ t.allInterfaces, ∃ b ∈ t.baseTypes, ∃ j ∈ b.interfaces, Relation.ReflTransGen Declares j i) ∧
    (∀ b ∈ t.baseTypes, ∀ i ∈ b.interfaces, t.allInterfaces.contains i = true) ∧
    (∀ i ∈ t.allInterfaces, ∀ j ∈ i.interfaces, t.allInterfaces.contains j = true) ∧
    ((∀ i j, t.Implements i → t.Implements j → (i == j) = true → (i.interfaces == j.interfaces) = true) →
      t.allInterfaces = ((t.baseTypes.flatMap interfaces).flatMap preorder).eraseDups) := by
  refine ⟨pairwise_search .nil, ?_, ?_, ?_, ?_⟩
  · intro i hi
    have hwalk := implements_iff_mem_preorder.1 (implements_of_mem_allInterfaces hi)
    simp only [List.mem_flatMap, mem_preorder_iff] at hwalk
    obtain ⟨j, ⟨b, hb, hj⟩, hji⟩ := hwalk
    exact ⟨b, hb, j, hj, hji⟩
  · intro b hb i hi
    exact contains_allInterfaces_of_declared hb hi
  · intro i hi j hj
    exact contains_allInterfaces_of_extended hi hj
  · intro h
    apply allInterfaces_eq_eraseDups (respectsIdentity_of_interfaces h)
    intro b hb i hi
    exact .declared hb hi

end Explored

end LoadedType

namespace Library

def anthology : LoadedType := .defined <|
  (Declaration.bare .ordinaryClass "Books" "" "Anthology").extending (list.instantiate [.defined string])
    |>.implementing (collection.instantiate [.defined string])
    |>.implementing (sequence.instantiate [.defined (core .ordinaryClass "String")])

end Library

theorem LoadedType.anthology_interfaces_found_once :
    Library.anthology.allInterfaces =
      ((Library.anthology.baseTypes.flatMap interfaces).flatMap preorder).eraseDups ∧
    ((Library.anthology.baseTypes.flatMap interfaces).flatMap preorder).length = 12 ∧
    Library.anthology.allInterfaces.map (·.name) =
      ["ICollection`1", "IEnumerable`1", "IEnumerable", "IList`1", "IReadOnlyCollection`1"] := by
  have hequal : ∀ i ∈ (Library.anthology.baseTypes.flatMap interfaces).flatMap preorder,
      ∀ j ∈ (Library.anthology.baseTypes.flatMap interfaces).flatMap preorder,
        (i == j) = true → (i.interfaces == j.interfaces) = true := by
    decide +kernel
  obtain ⟨-, -, -, -, hwalk⟩ := Library.anthology.allInterfaces_explored
  refine ⟨hwalk ?_, by decide +kernel, by decide +kernel⟩
  intro i j hi hj
  exact hequal i (implements_iff_mem_preorder.1 hi) j (implements_iff_mem_preorder.1 hj)

end CollationLint
