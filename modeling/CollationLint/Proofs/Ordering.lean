import CollationLint.Proofs.Memo
import CollationLint.Proofs.Traversal

namespace CollationLint

namespace LoadedType

variable {s t a b p : LoadedType}

/-- A set of types with all that they extend: a class extends a class, an interface has no base class and
the root class extends nothing. Equal types are declared alike. -/
structure IsHierarchy (U : LoadedType → Prop) : Prop where
  obtainable : ∀ ⦃t⦄, U t → Obtainable t
  parent : ∀ ⦃t⦄, U t → ∀ ⦃p⦄, t.Extends p → U p
  interfaceBase : ∀ ⦃t⦄, U t → t.isInterface = true → t.base? = none
  classBase : ∀ ⦃t⦄, U t → t.form = .classLike → ∀ b ∈ t.base?, b.form = .classLike
  interface : ∀ ⦃t⦄, U t → ∀ i ∈ t.interfaces, i.isInterface = true
  root : ∀ ⦃t⦄, U t → t.isRoot = true → t.base? = none ∧ t.interfaces = []
  alike : ∀ ⦃s⦄, U s → ∀ ⦃t⦄, U t → (s == t) = true → s.SameDeclaration t

theorem rank_lt_of_extends (h : t.Extends p) : p.rank < t.rank := by
  rcases List.mem_append.1 h with hb | hi
  · exact rank_base?_lt (by simpa using hb)
  · exact rank_interfaces_lt hi

theorem SameParents.exists_parent (h : s.SameParents t) (hp : s.Extends p) :
    ∃ q, t.Extends q ∧ q.identity = p.identity := by
  rcases List.mem_append.1 hp with hb | hi
  · have hbase := h.base
    rw [Option.mem_toList.1 hb, Option.map_some] at hbase
    obtain ⟨q, hq, hqp⟩ := Option.map_eq_some_iff.1 hbase.symm
    exact ⟨q, extends_of_base? hq, hqp⟩
  · obtain ⟨q, hq, hqp⟩ := h.exists_interface hi
    exact ⟨q, extends_of_mem_interfaces hq, hqp⟩

theorem form_of_definition? {d : LoadedType} (h : t.definition? = some d) : d.form = t.form := by
  cases t with
  | parameter q => cases h
  | defined e =>
    rw [definition?] at h
    split at h
    · cases h
      rfl
    · cases h
  | constructed e arguments =>
    cases h
    rfl

theorem isInterface_of_identity (h : s.identity = t.identity) : s.isInterface = t.isInterface := by
  rw [isInterface, isInterface, form_eq_of_identity h]

theorem isGenericDefinition_of_isOpen (h : t.isOpen = false) : t.isGenericDefinition = false := by
  cases t with
  | parameter q => cases h
  | defined d => exact h
  | constructed d arguments => rfl

def candidates (t a : LoadedType) : List LoadedType :=
  if a.isInterface then t :: t.allInterfaces else t.baseTypes

theorem mem_candidates_self (t a : LoadedType) : t ∈ t.candidates a := by
  unfold candidates
  split
  · exact List.mem_cons_self
  · exact mem_baseTypes_self t

theorem reflTransGen_of_mem_candidates {c : LoadedType} (hc : c ∈ t.candidates a) :
    Relation.ReflTransGen Extends t c := by
  unfold candidates at hc
  split at hc
  · rcases List.mem_cons.1 hc with rfl | hc
    · exact .refl
    · exact (transGen_of_implements (implements_of_mem_allInterfaces hc)).to_reflTransGen
  · exact reflTransGen_of_mem_baseTypes c hc

theorem derivesFrom_iff_candidate (hg : a.isGenericDefinition = false) :
    t.derivesFrom a = true ↔ a.isRoot = true ∨ ∃ c ∈ t.candidates a, c.identity = a.identity := by
  have hsymm : (a == t) = (t == a) := by rw [Bool.eq_iff_iff, beq_iff, beq_iff, eq_comm]
  have hcases : t.derivesFrom a = true ↔ a.isRoot = true ∨ t.identity = a.identity ∨
      (if a.isInterface then t.allInterfaces.contains a else t.baseTypes.contains a) = true := by
    simp only [derivesFrom, accepts, hg, hsymm, ← beq_iff]
    cases (t == a) <;> cases a.isRoot <;> simp
  rw [hcases, candidates]
  apply or_congr Iff.rfl
  split
  · rw [contains_iff]
    simp only [List.exists_mem_cons_iff]
  · rw [contains_iff, or_iff_right_iff_imp]
    intro hid
    exact ⟨t, mem_baseTypes_self t, hid⟩

theorem derivesFrom_definition_iff_candidate (hg : a.isGenericDefinition = true) :
    t.derivesFrom a = true ↔ t.identity = a.identity ∨ a.isRoot = true ∨
      ∃ c ∈ t.candidates a, c.definition?.map identity = some a.identity := by
  have hany (c : LoadedType) :
      c.definition?.any (· == a) = true ↔ c.definition?.map identity = some a.identity := by
    cases c.definition? <;> simp [beq_iff]
  simp only [derivesFrom, candidates, hg, ← beq_iff, ← hany, ← List.any_eq_true]
  cases (t == a) <;> cases a.isRoot <;> simp

namespace IsHierarchy

variable {U : LoadedType → Prop} (hU : IsHierarchy U)
include hU

theorem coherent : Coherent U := by
  intro s t hs ht h
  exact (hU.alike hs ht h).toSameParents

theorem respectsIdentity : RespectsIdentity Extends U where
  closed hs hx := hU.parent hs hx
  matched hs ht hid hx := (hU.coherent hs ht (beq_iff.2 hid)).exists_parent hx

theorem of_reflTransGen (ht : U t) (h : Relation.ReflTransGen Extends t s) : U s :=
  (hU.respectsIdentity.reach ht ht rfl h).1

theorem implements (ht : U t) {i : LoadedType} (hi : t.Implements i) : U i :=
  hU.of_reflTransGen ht (transGen_of_implements hi).to_reflTransGen

theorem isInterface_of_base? (ht : U t) (hb : t.base? = some b) :
    t.isInterface = false ∧ b.isInterface = false := by
  have hti : t.isInterface = false := by
    cases hi : t.isInterface with
    | false => rfl
    | true =>
      have hnone := hU.interfaceBase ht hi
      rw [hb] at hnone
      cases hnone
  have htc : t.form = .classLike := by
    cases t with
    | parameter q => cases hb
    | defined d => cases hr : d.role <;> simp_all [isInterface, form, Role.form]
    | constructed d arguments => cases hr : d.role <;> simp_all [isInterface, form, Role.form]
  exact ⟨hti, by simp [isInterface, hU.classBase ht htc b hb]⟩

theorem baseTypes_or_implements (ht : U t) (h : Relation.ReflTransGen Extends t s) :
    (s.isInterface = false → s ∈ t.baseTypes) ∧ (s.isInterface = true → s = t ∨ t.Implements s) := by
  induction h with
  | refl => exact ⟨fun _ => mem_baseTypes_self t, fun _ => .inl rfl⟩
  | @tail x s hx hs ih =>
    have hUx := hU.of_reflTransGen ht hx
    rcases List.mem_append.1 hs with hb | hi
    · have hb : x.base? = some s := by simpa using hb
      obtain ⟨hxi, hsi⟩ := hU.isInterface_of_base? hUx hb
      exact ⟨fun _ => mem_baseTypes_of_base? (ih.1 hxi) hb, fun h => absurd (hsi.symm.trans h) (by simp)⟩
    · have hsi := hU.interface hUx s hi
      refine ⟨fun h => absurd (hsi.symm.trans h) (by simp), fun _ => .inr ?_⟩
      cases hxi : x.isInterface with
      | false => exact .declared (ih.1 hxi) hi
      | true =>
        rcases ih.2 hxi with rfl | hti
        · exact .declared (mem_baseTypes_self x) hi
        · exact .extended hti hi

theorem eq_of_isRoot (ht : U t) (hr : t.isRoot = true) (h : Relation.ReflTransGen Extends t s) : s = t := by
  rcases Relation.ReflTransGen.cases_head h with h | ⟨x, hx, -⟩
  · exact h.symm
  · obtain ⟨hb, hi⟩ := hU.root ht hr
    simp [Extends, parents, hb, hi] at hx

theorem derivesFrom_iff (ht : U t) (hg : a.isGenericDefinition = false) :
    t.derivesFrom a = true ↔
      a.isRoot = true ∨ ∃ s, Relation.ReflTransGen Extends t s ∧ s.identity = a.identity := by
  rw [derivesFrom_iff_candidate hg]
  apply or_congr Iff.rfl
  constructor
  · rintro ⟨c, hc, hid⟩
    exact ⟨c, reflTransGen_of_mem_candidates hc, hid⟩
  · rintro ⟨s, hs, hid⟩
    obtain ⟨hclass, hinterface⟩ := hU.baseTypes_or_implements ht hs
    rw [isInterface_of_identity hid] at hclass hinterface
    rw [candidates]
    cases hi : a.isInterface with
    | false => exact ⟨s, hclass hi, hid⟩
    | true =>
      rcases hinterface hi with rfl | hts
      · exact ⟨s, List.mem_cons_self, hid⟩
      · have hc := (contains_allInterfaces_iff hU.coherent fun _ => hU.implements ht).2 ⟨s, hts, hid⟩
        obtain ⟨j, hj, hja⟩ := contains_iff.1 hc
        exact ⟨j, List.mem_cons_of_mem t hj, hja⟩

theorem definition?_of_identity (hs : U s) (ht : U t) (hid : s.identity = t.identity) :
    s.definition?.map identity = t.definition?.map identity := by
  have hsame := hU.alike hs ht (beq_iff.2 hid)
  exact (Prod.mk.inj (profile_eq_of_identity (hU.obtainable hs) (hU.obtainable ht) hid hsame.parameters)).2

theorem derivesFrom_definition_iff (ht : U t) (ha : U a) (hg : a.isGenericDefinition = true) :
    t.derivesFrom a = true ↔ a.isRoot = true ∨
      ∃ s, Relation.ReflTransGen Extends t s ∧ s.definition?.map identity = some a.identity := by
  have hself : a.definition?.map identity = some a.identity := by
    cases a with
    | parameter q => cases hg
    | defined d =>
      rw [definition?, if_pos (show d.isGeneric = true from hg)]
      rfl
    | constructed d arguments => cases hg
  rw [derivesFrom_definition_iff_candidate hg]
  constructor
  · rintro (hid | hr | ⟨c, hc, hca⟩)
    · exact .inr ⟨t, .refl, (hU.definition?_of_identity ht ha hid).trans hself⟩
    · exact .inl hr
    · exact .inr ⟨c, reflTransGen_of_mem_candidates hc, hca⟩
  · rintro (hr | ⟨s, hs, hsa⟩)
    · exact .inr (.inl hr)
    · refine .inr (.inr ?_)
      obtain ⟨hclass, hinterface⟩ := hU.baseTypes_or_implements ht hs
      obtain ⟨d, hd, hda⟩ := Option.map_eq_some_iff.1 hsa
      have hsi : s.isInterface = a.isInterface := by
        rw [isInterface, ← form_of_definition? hd, ← isInterface, isInterface_of_identity hda]
      rw [hsi] at hclass hinterface
      rw [candidates]
      cases hi : a.isInterface with
      | false => exact ⟨s, hclass hi, hsa⟩
      | true =>
        rcases hinterface hi with rfl | hts
        · exact ⟨s, List.mem_cons_self, hsa⟩
        · have hc := (contains_allInterfaces_iff hU.coherent fun _ => hU.implements ht).2 ⟨s, hts, rfl⟩
          obtain ⟨j, hj, hjs⟩ := contains_iff.1 hc
          have hUj := hU.implements ht (implements_of_mem_allInterfaces hj)
          refine ⟨j, List.mem_cons_of_mem t hj, ?_⟩
          rw [hU.definition?_of_identity hUj (hU.implements ht hts) hjs, hsa]

theorem reach_of_derivesFrom (ha : U a) (hb : U b) (hg : b.isGenericDefinition = false)
    (hab : a.derivesFrom b = true) (hr : b.isRoot = false) (hs : Relation.ReflTransGen Extends b s) :
    ∃ x, Relation.ReflTransGen Extends a x ∧ U x ∧ x.identity = s.identity := by
  rcases (hU.derivesFrom_iff ha hg).1 hab with h | ⟨x, hax, hxb⟩
  · cases hr.symm.trans h
  · obtain ⟨-, y, hxy, hy, hys⟩ := hU.respectsIdentity.reach hb (hU.of_reflTransGen ha hax) hxb.symm hs
    exact ⟨y, hax.trans hxy, hy, hys⟩

theorem derivesFrom_trans {c : LoadedType} (ha : U a) (hb : U b) (hc : U c)
    (hgb : b.isGenericDefinition = false) (hgc : c.isGenericDefinition = false)
    (hab : a.derivesFrom b = true) (hbc : b.derivesFrom c = true) : a.derivesFrom c = true := by
  rw [hU.derivesFrom_iff ha hgc]
  rcases (hU.derivesFrom_iff hb hgc).1 hbc with hr | ⟨s, hbs, hsc⟩
  · exact .inl hr
  · cases hr : b.isRoot with
    | true =>
      rw [hU.eq_of_isRoot hb hr hbs] at hsc
      rw [(hU.alike hb hc (beq_iff.2 hsc)).root] at hr
      exact .inl hr
    | false =>
      obtain ⟨x, hax, -, hxs⟩ := hU.reach_of_derivesFrom ha hb hgb hab hr hbs
      exact .inr ⟨x, hax, hxs.trans hsc⟩

theorem derivesFrom_definition_trans {C : LoadedType} (ha : U a) (hb : U b) (hC : U C)
    (hgb : b.isGenericDefinition = false) (hgC : C.isGenericDefinition = true)
    (hab : a.derivesFrom b = true) (hbC : b.derivesFrom C = true) : a.derivesFrom C = true := by
  rw [hU.derivesFrom_definition_iff ha hC hgC]
  rcases (hU.derivesFrom_definition_iff hb hC hgC).1 hbC with hr | ⟨s, hbs, hsC⟩
  · exact .inl hr
  · cases hr : b.isRoot with
    | true =>
      -- the root class is not generic here, so it has no definition that `C` could be
      rw [hU.eq_of_isRoot hb hr hbs] at hsC
      cases b with
      | parameter q => cases hr
      | defined d =>
        rw [definition?, if_neg (by simpa [isGenericDefinition] using hgb)] at hsC
        cases hsC
      | constructed d arguments => cases hr
    | false =>
      obtain ⟨x, hax, hx, hxs⟩ := hU.reach_of_derivesFrom ha hb hgb hab hr hbs
      refine .inr ⟨x, hax, ?_⟩
      rw [hU.definition?_of_identity hx (hU.of_reflTransGen hb hbs) hxs, hsC]

theorem derivesFrom_antisymm (ha : U a) (hb : U b) (hga : a.isGenericDefinition = false)
    (hgb : b.isGenericDefinition = false) (hab : a.derivesFrom b = true) (hba : b.derivesFrom a = true) :
    (a == b) = true ∨ a.isRoot = true ∧ b.isRoot = true := by
  rw [beq_iff]
  rcases (hU.derivesFrom_iff hb hga).1 hba with hra | ⟨y, hby, hya⟩
  · rcases (hU.derivesFrom_iff ha hgb).1 hab with hrb | ⟨x, hax, hxb⟩
    · exact .inr ⟨hra, hrb⟩
    · rw [hU.eq_of_isRoot ha hra hax] at hxb
      exact .inl hxb
  · cases hrb : b.isRoot with
    | true =>
      rw [hU.eq_of_isRoot hb hrb hby] at hya
      exact .inl hya.symm
    | false =>
      obtain ⟨x, hax, hUx, hxb⟩ := hU.reach_of_derivesFrom ha hb hgb hab hrb .refl
      obtain ⟨-, z, hxz, -, hzy⟩ := hU.respectsIdentity.reach hb hUx hxb.symm hby
      rcases Relation.reflTransGen_iff_eq_or_transGen.1 hax with rfl | hax
      · exact .inl hxb
      · exact absurd (hzy.trans hya)
          (hU.respectsIdentity.identity_ne (fun _ _ => rank_lt_of_extends) ha (hax.trans_left hxz))

end IsHierarchy

theorem derivesFrom_orders_closed_types {U : LoadedType → Prop} (hU : IsHierarchy U) :
    (∀ a, U a → a.isOpen = false → a.derivesFrom a = true) ∧
    (∀ a b c, U a → U b → U c → a.isOpen = false → b.isOpen = false → c.isOpen = false →
      a.derivesFrom b = true → b.derivesFrom c = true → a.derivesFrom c = true) ∧
    (∀ a b, U a → U b → a.isOpen = false → b.isOpen = false →
      a.derivesFrom b = true → b.derivesFrom a = true →
      (a == b) = true ∨ a.isRoot = true ∧ b.isRoot = true) ∧
    (∀ a b C, U a → U b → U C → a.isOpen = false → b.isOpen = false → C.isGenericDefinition = true →
      a.derivesFrom b = true → b.derivesFrom C = true → a.derivesFrom C = true) := by
  refine ⟨?_, ?_, ?_, ?_⟩
  · intro a ha hoa
    exact (hU.derivesFrom_iff ha (isGenericDefinition_of_isOpen hoa)).2 (.inr ⟨a, .refl, rfl⟩)
  · intro a b c ha hb hc _ hob hoc
    exact hU.derivesFrom_trans ha hb hc (isGenericDefinition_of_isOpen hob) (isGenericDefinition_of_isOpen hoc)
  · intro a b ha hb hoa hob
    exact hU.derivesFrom_antisymm ha hb (isGenericDefinition_of_isOpen hoa) (isGenericDefinition_of_isOpen hob)
  · intro a b C ha hb hC _ hob hg
    exact hU.derivesFrom_definition_trans ha hb hC (isGenericDefinition_of_isOpen hob) hg

end LoadedType

namespace Library

def ofStrings (d : Definition) : LoadedType := d.instantiate [.defined string]

def setTypes : List LoadedType :=
  [ofStrings hashSet, .defined object, ofStrings setInterface, ofStrings readOnlyCollection,
    ofStrings collection, ofStrings sequence, .defined untypedSequence, .defined sequence]

theorem parents_setTypes : setTypes.map LoadedType.parents =
    [[.defined object, ofStrings setInterface, ofStrings readOnlyCollection], [], [ofStrings collection],
      [ofStrings sequence], [ofStrings sequence], [.defined untypedSequence], [],
      [.defined untypedSequence]] := rfl

theorem setTypes_isHierarchy : LoadedType.IsHierarchy (· ∈ setTypes) where
  obtainable := by decide +kernel
  parent t ht p hp := by
    have hmem : p ∈ (setTypes.map LoadedType.parents).flatten :=
      List.mem_flatten.2 ⟨t.parents, List.mem_map_of_mem ht, hp⟩
    rw [parents_setTypes] at hmem
    simp only [List.flatten_cons, List.flatten_nil, List.nil_append, List.append_nil, List.cons_append,
      List.mem_cons, List.not_mem_nil, or_false, setTypes] at hmem ⊢
    tauto
  interfaceBase := by decide +kernel
  classBase := by decide +kernel
  interface := by decide +kernel
  root := by decide +kernel
  alike := by
    have hsame : ∀ s ∈ setTypes, ∀ t ∈ setTypes, (s == t) = true →
        s.base?.map LoadedType.identity = t.base?.map LoadedType.identity ∧
        s.interfaces.map LoadedType.identity = t.interfaces.map LoadedType.identity ∧
        s.isRoot = t.isRoot ∧ s.parameters = t.parameters := by
      decide +kernel
    intro s hs t ht hst
    obtain ⟨hbase, hinterfaces, hroot, hparameters⟩ := hsame s hs t ht hst
    exact ⟨⟨hbase, fun _ => by rw [hinterfaces]⟩, hroot, hparameters⟩

end Library

theorem LoadedType.set_of_strings_ordered :
    IsHierarchy (· ∈ Library.setTypes) ∧
    (Library.ofStrings Library.hashSet).derivesFrom (Library.ofStrings Library.sequence) = true ∧
    (Library.ofStrings Library.hashSet).derivesFrom (.defined Library.sequence) = true ∧
    (Library.ofStrings Library.sequence).derivesFrom (Library.ofStrings Library.hashSet) = false := by
  have hU := Library.setTypes_isHierarchy
  obtain ⟨-, htrans, hantisymm, hopen⟩ := derivesFrom_orders_closed_types hU
  have hset : Library.ofStrings Library.hashSet ∈ Library.setTypes := by simp [Library.setTypes]
  have hmid : Library.ofStrings Library.setInterface ∈ Library.setTypes := by simp [Library.setTypes]
  have hseq : Library.ofStrings Library.sequence ∈ Library.setTypes := by simp [Library.setTypes]
  have hdef : .defined Library.sequence ∈ Library.setTypes := by simp [Library.setTypes]
  have hstep : (Library.ofStrings Library.hashSet).derivesFrom (Library.ofStrings Library.sequence) = true :=
    htrans _ _ _ hset hmid hseq (by decide +kernel) (by decide +kernel) (by decide +kernel)
      (by decide +kernel) (by decide +kernel)
  refine ⟨hU, hstep, ?_, ?_⟩
  · exact hopen _ _ _ hset hmid hdef (by decide +kernel) (by decide +kernel) (by decide +kernel)
      (by decide +kernel) (by decide +kernel)
  · rw [← Bool.not_eq_true]
    intro hback
    rcases hantisymm _ _ hset hseq (by decide +kernel) (by decide +kernel) hstep hback with h | h
    · exact absurd h (by decide +kernel)
    · exact absurd h (by decide +kernel)

end CollationLint
