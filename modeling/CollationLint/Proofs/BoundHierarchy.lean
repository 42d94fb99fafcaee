import CollationLint.Proofs.ElementType
import CollationLint.Proofs.Traversal

namespace CollationLint

namespace LoadedType

variable {𝒟 : Definition → Prop}

/-- The definitions `𝒟`, all that they extend, and the definitions that this was constructed from. -/
inductive Lineage (𝒟 : Definition → Prop) : LoadedType → Prop
  | member {d : Definition} (h : 𝒟 d) : Lineage 𝒟 (.defined d)
  | parent {t p : LoadedType} (h : Lineage 𝒟 t) (hp : t.Extends p) : Lineage 𝒟 p
  | definition {t d : LoadedType} (h : Lineage 𝒟 t) (hd : t.definition? = some d) : Lineage 𝒟 d

def Involves (𝒟 : Definition → Prop) (e : Definition) : Prop := ∃ d, 𝒟 d ∧ e ∈ (defined d).definitions

theorem involves_of_member {D : Definition} (hD : 𝒟 D) (e : Definition) (he : e ∈ (defined D).definitions) :
    Involves 𝒟 e := ⟨D, hD, he⟩

structure IsUniverse (𝒟 : Definition → Prop) : Prop where
  hygienic : Hygienic (Involves 𝒟)
  coherent : Coherent (Lineage 𝒟)

theorem Lineage.implemented {t i : LoadedType} (h : Lineage 𝒟 t) (hi : t.Implements i) : Lineage 𝒟 i :=
  hi.of_parents (of_mem_baseTypes (fun _ hs _ hb => hs.parent (extends_of_base? hb)) h)
    fun _ hs _ hi => hs.parent (extends_of_mem_interfaces hi)

section SameParents

variable {d e : Definition} {as bs : List LoadedType}

theorem identity_bound_congr (hla : as.length = d.arity) (hlb : bs.length = e.arity)
    (ha : ∀ a ∈ as, a.isOpen = false) (hb : ∀ b ∈ bs, b.isOpen = false)
    (hargs : as.map identity = bs.map identity) {p q : LoadedType} (hp : p.isBuiltFrom d.parameters = true)
    (hq : q.isBuiltFrom e.parameters = true) (hid : p.identity = q.identity) :
    (p.subst (d.bindings as)).identity = (q.subst (e.bindings bs)).identity := by
  apply identity_subst_congr₂ (Declaration.exists_lookup_bindings hla ha)
    (Declaration.exists_lookup_bindings hlb hb) _ hp hq hid
  -- a shared parameter has the same position in both lists
  intro x hxd hxe
  rw [Declaration.lookup_bindings hxd, Declaration.lookup_bindings hxe, ← List.getElem?_map,
    ← List.getElem?_map, hargs]

theorem SameParents.constructed (h : SameParents (.defined d) (.defined e))
    (hd : ∀ p ∈ d.parents, p.isBuiltFrom d.parameters = true)
    (he : ∀ p ∈ e.parents, p.isBuiltFrom e.parameters = true)
    (hla : as.length = d.arity) (hlb : bs.length = e.arity)
    (ha : ∀ a ∈ as, a.isOpen = false) (hb : ∀ b ∈ bs, b.isOpen = false)
    (hargs : as.map identity = bs.map identity) : SameParents (.constructed d as) (.constructed e bs) := by
  have hcongr {p q : LoadedType} (hp : p ∈ d.parents) (hq : q ∈ e.parents) (hid : p.identity = q.identity) :
      (p.subst (d.bindings as)).identity = (q.subst (e.bindings bs)).identity :=
    identity_bound_congr hla hlb ha hb hargs (hd p hp) (he q hq) hid
  constructor
  · have hbase : d.base.map identity = e.base.map identity := h.base
    rw [base?, base?, Option.map_map, Option.map_map]
    cases hp : d.base with
    | none =>
      rw [hp, Option.map_none, eq_comm, Option.map_eq_none_iff] at hbase
      rw [hbase, Option.map_none, Option.map_none]
    | some p =>
      rw [hp, Option.map_some] at hbase
      obtain ⟨q, hq, hqp⟩ := Option.map_eq_some_iff.1 hbase.symm
      rw [hq, Option.map_some, Option.map_some]
      exact congrArg some (hcongr (by simp [Declaration.parents, hp]) (by simp [Declaration.parents, hq])
        hqp.symm)
  · intro x
    simp only [LoadedType.interfaces, List.map_map, List.mem_map, Function.comp_apply]
    constructor
    · rintro ⟨p, hp, rfl⟩
      obtain ⟨q, hq, hqp⟩ := h.exists_interface hp
      exact ⟨q, hq, (hcongr (List.mem_append_right _ hp) (List.mem_append_right _ hq) hqp.symm).symm⟩
    · rintro ⟨q, hq, rfl⟩
      obtain ⟨p, hp, hpq⟩ := List.mem_map.1 ((h.interfaces _).2 (List.mem_map_of_mem hq))
      exact ⟨p, hp, hcongr (List.mem_append_right _ hp) (List.mem_append_right _ hq) hpq⟩

end SameParents

namespace IsUniverse

variable {D : Definition} {A : List LoadedType} (h : IsUniverse 𝒟) (hD : 𝒟 D)
include h hD

theorem isBuiltFrom_of_implements {i : LoadedType} (hi : (defined D).Implements i) :
    i.isBuiltFrom D.parameters = true :=
  (h.hygienic.isBuiltFrom_of_extends (involves_of_member hD) (transGen_of_implements hi)).1

theorem isParameter_of_implements (hp : ∀ t ∈ (defined D).allInterfaces, t.isParameter = false)
    {i : LoadedType} (hi : (defined D).Implements i) : i.isParameter = false :=
  LoadedType.isParameter_of_implements h.coherent (fun _ => (Lineage.member hD).implemented) hp hi

theorem respectsIdentity_implements : RespectsIdentity Declares (defined D).Implements where
  closed hs hx := hs.extended hx
  matched hs ht hid hx := by
    have hsame := h.coherent ((Lineage.member hD).implemented hs) ((Lineage.member hD).implemented ht)
      (beq_iff.2 hid)
    exact hsame.exists_interface hx

section Bound

variable (hlen : A.length = D.arity) (hA : ∀ a ∈ A, a.isOpen = false)
include hlen hA

theorem sameParents_subst {i j : LoadedType} (hi : (defined D).Implements i) (hj : (defined D).Implements j)
    (hpi : i.isParameter = false) (hpj : j.isParameter = false)
    (hid : (i.subst (D.bindings A)).identity = (j.subst (D.bindings A)).identity) :
    SameParents (i.subst (D.bindings A)) (j.subst (D.bindings A)) := by
  have hσ := Declaration.exists_lookup_bindings hlen hA
  have hli : Lineage 𝒟 i := (Lineage.member hD).implemented hi
  have hlj : Lineage 𝒟 j := (Lineage.member hD).implemented hj
  have hbuilt {k : LoadedType} (hk : (defined D).Implements k) :=
    h.hygienic.isBuiltFrom_of_extends (involves_of_member hD) (transGen_of_implements hk)
  obtain ⟨hbi, hdefsi⟩ := hbuilt hi
  obtain ⟨hbj, hdefsj⟩ := hbuilt hj
  have hsplit {d : Definition} {as : List LoadedType} (hb : (constructed d as).isBuiltFrom D.parameters = true)
      (e : Definition) : ((constructed d as).subst (D.bindings A)).identity ≠ (defined e).identity := by
    obtain ⟨hg, hlen', -⟩ := isBuiltFrom_constructed.1 hb
    rw [subst_constructed_of_isBuiltFrom hσ hb, identity_constructed, identity]
    intro heq
    have hnil := (Identity.mk.inj heq).2.2.2.2
    rw [List.map_eq_nil_iff, List.map_eq_nil_iff] at hnil
    rw [hnil] at hlen'
    exact Declaration.isGeneric_iff.1 hg hlen'.symm
  cases i with
  | parameter p => cases hpi
  | defined d =>
    cases j with
    | parameter p => cases hpj
    | defined e => exact h.coherent hli hlj (beq_iff.2 hid)
    | constructed e bs => exact absurd hid.symm (hsplit hbj d)
  | constructed d as =>
    cases j with
    | parameter p => cases hpj
    | defined e => exact absurd hid (hsplit hbi e)
    | constructed e bs =>
      have hclosed {d : Definition} {as : List LoadedType}
          (hb : (constructed d as).isBuiltFrom D.parameters = true) :
          ∀ a ∈ as.map (subst (D.bindings A)), a.isOpen = false := by
        have hopen := isOpen_subst hσ hb
        rwa [subst_constructed_of_isBuiltFrom hσ hb, isOpen_constructed] at hopen
      obtain ⟨-, hla, -⟩ := isBuiltFrom_constructed.1 hbi
      obtain ⟨-, hlb, -⟩ := isBuiltFrom_constructed.1 hbj
      have hcj := hclosed hbj
      have hci := hclosed hbi
      rw [subst_constructed_of_isBuiltFrom hσ hbi, subst_constructed_of_isBuiltFrom hσ hbj] at hid ⊢
      rw [identity_constructed, identity_constructed, Identity.mk.injEq] at hid
      obtain ⟨ha, hs, hn, hf, hargs⟩ := hid
      have hde : (defined d).identity = (defined e).identity := by rw [identity, identity, ha, hs, hn, hf]
      have hsame := h.coherent (hli.definition rfl) (hlj.definition rfl) (beq_iff.2 hde)
      exact hsame.constructed (h.hygienic.built d (hdefsi d (mem_definitions_head d as)))
        (h.hygienic.built e (hdefsj e (mem_definitions_head e bs))) (by rw [List.length_map, hla])
        (by rw [List.length_map, hlb]) hci hcj hargs

variable (hp : ∀ t ∈ (defined D).baseTypes ++ (defined D).allInterfaces, t.isParameter = false)
include hp

theorem mirrors_of_implements {i : LoadedType} (hi : (defined D).Implements i) :
    Mirrors (subst (D.bindings A)) i (i.subst (D.bindings A)) := by
  apply h.hygienic.mirrors_of_implements (involves_of_member hD) hlen hA hi
  exact h.isParameter_of_implements hD (fun t ht => hp t (List.mem_append_right _ ht)) hi

theorem mirrors_of_base : ∀ b ∈ (defined D).baseTypes, ∀ c, b.base? = some c →
    Mirrors (subst (D.bindings A)) c (c.subst (D.bindings A)) := by
  apply h.hygienic.mirrors_of_base (involves_of_member hD) hlen hA
  intro b hb
  exact hp b (List.mem_append_left _ hb)

theorem respectsIdentity_bound :
    RespectsIdentity Declares fun j => ∃ i, (defined D).Implements i ∧ i.subst (D.bindings A) = j where
  closed := by
    rintro _ x ⟨i, hi, rfl⟩ hx
    rw [Declares, (h.mirrors_of_implements hD hlen hA hp hi).interfaces] at hx
    obtain ⟨k, hk, rfl⟩ := List.mem_map.1 hx
    exact ⟨k, hi.extended hk, rfl⟩
  matched := by
    rintro _ _ x ⟨i, hi, rfl⟩ ⟨j, hj, rfl⟩ hid hx
    have hplain {k : LoadedType} (hk : (defined D).Implements k) : k.isParameter = false :=
      h.isParameter_of_implements hD (fun t ht => hp t (List.mem_append_right _ ht)) hk
    exact (h.sameParents_subst hD hlen hA hi hj (hplain hi) (hplain hj) hid).exists_interface hx

theorem tail_baseTypes_instantiate :
    (D.instantiate A).baseTypes.tail = (defined D).baseTypes.tail.map (subst (D.bindings A)) := by
  have hm := h.hygienic.mirrors_instantiate (involves_of_member hD) hlen hA
  rw [hm.baseTypes_eq (h.mirrors_of_base hD hlen hA hp), List.tail_cons]

theorem allInterfaces_instantiate :
    (D.instantiate A).allInterfaces = ((defined D).allInterfaces.map (subst (D.bindings A))).eraseDups := by
  let declared := (defined D).baseTypes.flatMap interfaces
  have himplemented : ∀ b ∈ (defined D).baseTypes, ∀ i ∈ b.interfaces, (defined D).Implements i :=
    fun b hb i hi => .declared hb hi
  have hreach {i s : LoadedType} (hi : (defined D).Implements i) (hs : s ∈ i.preorder) :
      (defined D).Implements s :=
    ((h.respectsIdentity_implements hD).reach hi hi rfl (mem_preorder_iff.1 hs)).1
  have hdeclared : ∀ i ∈ declared, (defined D).Implements i := by
    intro i hi
    obtain ⟨b, hb, hi⟩ := List.mem_flatMap.1 hi
    exact .declared hb hi
  have hbases : (D.instantiate A).baseTypes.flatMap interfaces = declared.map (subst (D.bindings A)) := by
    have hm := h.hygienic.mirrors_instantiate (involves_of_member hD) hlen hA
    exact hm.flatMap_interfaces (h.mirrors_of_base hD hlen hA hp)
  have hwalk : (declared.map (subst (D.bindings A))).flatMap preorder =
      (declared.flatMap preorder).map (subst (D.bindings A)) := by
    rw [List.flatMap_map, List.map_flatMap]
    apply List.flatMap_congr
    intro i hi
    apply preorder_map
    intro s hs
    exact h.mirrors_of_implements hD hlen hA hp (hreach (hdeclared i hi) hs)
  have hbound : ∀ b ∈ (D.instantiate A).baseTypes, ∀ j ∈ b.interfaces,
      ∃ i, (defined D).Implements i ∧ i.subst (D.bindings A) = j := by
    intro b hb j hj
    have hmem : j ∈ declared.map (subst (D.bindings A)) := hbases ▸ List.mem_flatMap.2 ⟨b, hb, hj⟩
    obtain ⟨i, hi, rfl⟩ := List.mem_map.1 hmem
    exact ⟨i, hdeclared i hi, rfl⟩
  rw [allInterfaces_eq_eraseDups (h.respectsIdentity_bound hD hlen hA hp) hbound, hbases, hwalk,
    allInterfaces_eq_eraseDups (h.respectsIdentity_implements hD) himplemented, eraseDups_map_eraseDups]
  intro s hs t ht hid
  obtain ⟨i, hi, hs⟩ := List.mem_flatMap.1 hs
  obtain ⟨j, hj, ht⟩ := List.mem_flatMap.1 ht
  exact identity_subst_congr (Declaration.exists_lookup_bindings hlen hA)
    (h.isBuiltFrom_of_implements hD (hreach (hdeclared i hi) hs))
    (h.isBuiltFrom_of_implements hD (hreach (hdeclared j hj) ht)) hid

theorem isOpen_of_mem_instantiate :
    ∀ s ∈ (D.instantiate A).allInterfaces ++ (D.instantiate A).baseTypes.tail, s.isOpen = false := by
  have hσ := Declaration.exists_lookup_bindings hlen hA
  intro s hs
  rcases List.mem_append.1 hs with hs | hs
  · obtain ⟨i, hi, rfl⟩ := ((h.hygienic.mirrors_instantiate (involves_of_member hD) hlen hA).implements_iff
      (h.mirrors_of_base hD hlen hA hp) fun _ => h.mirrors_of_implements hD hlen hA hp).1
        (implements_of_mem_allInterfaces hs)
    exact isOpen_subst hσ (h.isBuiltFrom_of_implements hD hi)
  · rw [h.tail_baseTypes_instantiate hD hlen hA hp] at hs
    obtain ⟨b, hb, rfl⟩ := List.mem_map.1 hs
    obtain ⟨c, hc, hcb⟩ := exists_base?_of_mem_tail hb
    have hext : Relation.TransGen Extends (.defined D) b :=
      .tail' (reflTransGen_of_mem_baseTypes c hc) (extends_of_base? hcb)
    exact isOpen_subst hσ (h.hygienic.isBuiltFrom_of_extends (involves_of_member hD) hext).1

end Bound

end IsUniverse

theorem bound_hierarchy_eq_mapped (h : IsUniverse 𝒟) {D : Definition} (hD : 𝒟 D) (hg : D.isGeneric = true)
    {A : List LoadedType} (hlen : A.length = D.arity) (hA : ∀ a ∈ A, a.isOpen = false)
    (hp : ∀ t ∈ (defined D).baseTypes ++ (defined D).allInterfaces, t.isParameter = false) :
    ∃ t, (defined D).bind A = .ok t ∧
      t.allInterfaces = ((defined D).allInterfaces.map (subst (D.bindings A))).eraseDups ∧
      t.baseTypes.tail = (defined D).baseTypes.tail.map (subst (D.bindings A)) ∧
      ∀ s ∈ t.allInterfaces ++ t.baseTypes.tail, s.isOpen = false := by
  refine ⟨D.instantiate A, bind_defined_eq_ok_iff.2 ⟨hg, hlen, rfl⟩, ?_, ?_, ?_⟩
  · exact h.allInterfaces_instantiate hD hlen hA hp
  · exact h.tail_baseTypes_instantiate hD hlen hA hp
  · exact h.isOpen_of_mem_instantiate hD hlen hA hp

theorem involves_list_iff {ds : List Definition} {e : Definition} :
    Involves (· ∈ ds) e ↔ e ∈ ds.flatMap fun d => (defined d).definitions :=
  List.mem_flatMap.symm

theorem Lineage.headedBy {H : List Definition} (hH : ClosedUnderParents H) (h𝒟 : ∀ d, 𝒟 d → d ∈ H)
    {t : LoadedType} (ht : Lineage 𝒟 t) : HeadedBy H t := by
  induction ht with
  | member hd => exact .defined (h𝒟 _ hd)
  | parent _ hp ih => exact ih.extends hH hp
  | @definition t d _ hd ih =>
    cases ih with
    | parameter q => cases hd
    | defined he =>
      rw [definition?] at hd
      split at hd
      · cases hd
        exact .defined he
      · cases hd
    | constructed he =>
      cases hd
      exact .defined he

theorem isUniverse_of_nodup {H ds : List Definition} (hds : ∀ d ∈ ds, d ∈ H)
    (hu : (H.map fun d => (defined d).identity).Nodup) (hH : ClosedUnderParents H)
    (hbuilt : ∀ d ∈ ds.flatMap fun d => (defined d).definitions, ∀ p ∈ d.parents,
      p.isBuiltFrom d.parameters = true)
    (hirreflexive : ∀ d ∈ ds.flatMap fun d => (defined d).definitions, ∀ p ∈ d.parents,
      ∀ e ∈ p.definitions, e.isGeneric = true → (defined e == defined d) = false)
    (hdisjoint : ∀ d ∈ ds.flatMap fun d => (defined d).definitions,
      ∀ e ∈ ds.flatMap fun d => (defined d).definitions, ∀ p ∈ d.parameters, p ∈ e.parameters →
        (defined e == defined d) = true) : IsUniverse (· ∈ ds) where
  hygienic :=
    { built := fun d hd => hbuilt d (involves_list_iff.1 hd)
      irreflexive := irreflexive_of_definitions fun d hd => hirreflexive d (involves_list_iff.1 hd)
      disjoint := fun d hd e he => hdisjoint d (involves_list_iff.1 hd) e (involves_list_iff.1 he) }
  coherent := by
    intro s t hs ht hst
    exact coherent_headedBy hu (hs.headedBy hH hds) (ht.headedBy hH hds) hst

end LoadedType

namespace Library

def index : Definition :=
  let d := (Declaration.bare .ordinaryClass tablesAssembly "" "Index").withParameters ["K", "V"]
  (d.extending (pairs.instantiate (d.parameters.map .parameter))).implementing
    (sequence.instantiate ((d.parameters.take 1).map .parameter))

def tableTypes : List Definition := [index, table, wrapper]

theorem indexHeads_closed : LoadedType.ClosedUnderParents (index :: tableHeads) := by
  intro d hd p hp
  rcases List.mem_cons.1 hd with rfl | hd
  · have hp : p ∈ [pairs.instantiate (index.parameters.map .parameter),
      sequence.instantiate ((index.parameters.take 1).map .parameter)] := hp
    simp only [List.mem_cons, List.not_mem_nil, or_false] at hp
    rcases hp with rfl | rfl
    · exact .inr ⟨pairs, by simp [tableHeads], rfl, rfl⟩
    · exact .inr ⟨sequence, by simp [tableHeads], rfl, rfl⟩
  · rcases tableHeads_closed d hd p hp with h | ⟨e, he, hno, hhead⟩
    · exact .inl h
    · exact .inr ⟨e, List.mem_cons_of_mem _ he, hno, hhead⟩

theorem tableTypes_isUniverse : LoadedType.IsUniverse (· ∈ tableTypes) := by
  apply LoadedType.isUniverse_of_nodup (H := index :: tableHeads) _ (by decide +kernel) indexHeads_closed
  · decide +kernel
  · decide +kernel
  · decide +kernel
  · intro d hd
    simp only [tableTypes, List.mem_cons, List.not_mem_nil, or_false] at hd
    rcases hd with rfl | rfl | rfl <;> simp [tableHeads]

end Library

theorem LoadedType.string_index_hierarchy :
    ∃ t, (defined Library.index).bind [.defined Library.string, .defined Library.string] = .ok t ∧
      t.allInterfaces.map identity =
        [Library.sequence.instantiate [.defined Library.string], .defined Library.untypedSequence].map identity ∧
      t.baseTypes.tail.map identity =
        [(Library.pairs.instantiate [.defined Library.string, .defined Library.string]).identity] ∧
      ∀ s ∈ t.allInterfaces ++ t.baseTypes.tail, s.isOpen = false := by
  obtain ⟨t, ht, hinterfaces, hbases, hclosed⟩ := bound_hierarchy_eq_mapped Library.tableTypes_isUniverse
    (D := Library.index) (A := [.defined Library.string, .defined Library.string]) List.mem_cons_self rfl rfl
    (by decide +kernel) (by decide +kernel)
  refine ⟨t, ht, ?_, ?_, hclosed⟩
  · rw [hinterfaces]
    decide +kernel
  · rw [hbases]
    decide +kernel

theorem LoadedType.wrapped_table_hierarchy :
    IsUniverse (· ∈ Library.tableTypes) ∧ Library.wrapper ∈ Library.tableTypes ∧
    Library.wrapper.isGeneric = true ∧ [Library.stringTable].length = Library.wrapper.arity ∧
    Library.stringTable.isOpen = false ∧
    ∃ t, (defined Library.wrapper).bind [Library.stringTable] = .ok t ∧
      t.allInterfaces ≠ ((defined Library.wrapper).allInterfaces.map
        (subst (Library.wrapper.bindings [Library.stringTable]))).eraseDups ∧
      t.baseTypes.tail ≠ (defined Library.wrapper).baseTypes.tail.map
        (subst (Library.wrapper.bindings [Library.stringTable])) := by
  refine ⟨Library.tableTypes_isUniverse, by simp [Library.tableTypes], rfl, rfl, by decide +kernel,
    Library.wrapper.instantiate [Library.stringTable], rfl, ?_, ?_⟩
  · intro h
    exact absurd (congrArg List.length h) (by decide +kernel)
  · intro h
    exact absurd (congrArg List.length h) (by decide +kernel)

end CollationLint
