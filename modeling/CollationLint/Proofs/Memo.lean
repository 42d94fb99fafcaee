import CollationLint.Proofs.Obtainable
import Mathlib.Data.List.Dedup

namespace CollationLint

namespace LoadedType

variable {s t a b : LoadedType}

structure SameDeclaration (s t : LoadedType) : Prop extends SameParents s t where
  root : s.isRoot = t.isRoot
  parameters : s.parameters = t.parameters

theorem Obtainable.arguments_ne_nil {d : Definition} {arguments : List LoadedType}
    (h : Obtainable (.constructed d arguments)) : arguments ≠ [] := by
  obtain ⟨-, hg, hlen, -, -⟩ := obtainable_constructed_iff.1 h
  rintro rfl
  exact Declaration.isGeneric_iff.1 hg hlen.symm

theorem isGenericDefinition_iff_parameters : t.isGenericDefinition = true ↔ t.parameters ≠ [] := by
  cases t with
  | parameter p => simp [isGenericDefinition, parameters]
  | defined d =>
    rw [isGenericDefinition, Declaration.isGeneric_iff, ← d.length_parameters, parameters]
    exact List.length_eq_zero_iff.not
  | constructed d arguments => simp [isGenericDefinition, parameters]

theorem isGenericDefinition_congr (h : s.parameters = t.parameters) :
    s.isGenericDefinition = t.isGenericDefinition := by
  rw [Bool.eq_iff_iff, isGenericDefinition_iff_parameters, isGenericDefinition_iff_parameters, h]

theorem form_eq_of_identity (h : s.identity = t.identity) : s.form = t.form :=
  (identity_eq_iff.1 h).2.2.2.1

theorem definition?_of_identity_constructed {d : Definition} {arguments : List LoadedType}
    (hne : arguments ≠ []) (hid : t.identity = (constructed d arguments).identity) :
    t.definition?.map identity = some (defined d).identity := by
  cases t with
  | parameter p => cases eq_parameter_of_identity hid.symm
  | defined e =>
    rw [identity, identity_constructed, Identity.mk.injEq] at hid
    exact absurd (List.map_eq_nil_iff.1 hid.2.2.2.2.symm) hne
  | constructed e bs =>
    rw [identity_constructed, identity_constructed, Identity.mk.injEq] at hid
    obtain ⟨ha, hspace, hn, hf, -⟩ := hid
    rw [definition?, Option.map_some, identity, identity, ha, hspace, hn, hf]

theorem profile_eq_of_identity (hs : Obtainable s) (ht : Obtainable t) (hid : s.identity = t.identity)
    (hp : s.parameters = t.parameters) : s.profile = t.profile := by
  have hdef : s.definition?.map identity = t.definition?.map identity := by
    cases s with
    | parameter p => rw [eq_parameter_of_identity hid.symm]
    | defined d =>
      cases t with
      | parameter p => rw [eq_parameter_of_identity hid]
      | defined e =>
        have hg : d.isGeneric = e.isGeneric := isGenericDefinition_congr hp
        rw [definition?, definition?, hg]
        split
        · rw [Option.map_some, Option.map_some, hid]
        · rfl
      | constructed e arguments => exact definition?_of_identity_constructed ht.arguments_ne_nil hid
    | constructed d arguments =>
      exact (definition?_of_identity_constructed hs.arguments_ne_nil hid.symm).symm
  rw [profile, profile, hid, hdef]

def surroundings (t : LoadedType) : List LoadedType := t.baseTypes ++ t.allInterfaces

theorem mem_surroundings_of_baseTypes (h : s ∈ t.baseTypes) : s ∈ t.surroundings :=
  List.mem_append_left _ h

theorem mem_surroundings_of_allInterfaces (h : s ∈ t.allInterfaces) : s ∈ t.surroundings :=
  List.mem_append_right _ h

theorem Obtainable.surroundings (h : Obtainable t) (hs : s ∈ t.surroundings) : Obtainable s := by
  have hbase := of_mem_baseTypes (fun _ hs _ hb => hs.extends (extends_of_base? hb)) h
  rcases List.mem_append.1 hs with hs | hs
  · exact hbase s hs
  · exact (implements_of_mem_allInterfaces hs).of_parents hbase
      fun _ hs _ hi => hs.extends (extends_of_mem_interfaces hi)

theorem map_profile_baseTypes (hs : Obtainable s) (ht : Obtainable t) (hid : s.identity = t.identity)
    (h : ∀ x ∈ s.baseTypes, ∀ y ∈ t.baseTypes, x.identity = y.identity → x.SameDeclaration y) :
    s.baseTypes.map profile = t.baseTypes.map profile := by
  induction s using rankRec generalizing t with
  | step s ih =>
    have hsame := h s (mem_baseTypes_self s) t (mem_baseTypes_self t) hid
    have hprofile := profile_eq_of_identity hs ht hid hsame.parameters
    have hbase := hsame.base
    cases hsb : s.base? with
    | none =>
      rw [hsb, Option.map_none, eq_comm, Option.map_eq_none_iff] at hbase
      rw [baseTypes_of_none hsb, baseTypes_of_none hbase, List.map_singleton, List.map_singleton, hprofile]
    | some b =>
      rw [hsb, Option.map_some] at hbase
      obtain ⟨c, htc, hcb⟩ := Option.map_eq_some_iff.1 hbase.symm
      rw [baseTypes_of_some hsb, baseTypes_of_some htc, List.map_cons, List.map_cons, hprofile]
      congr 1
      have hb := hs.extends (extends_of_base? hsb)
      have hc := ht.extends (extends_of_base? htc)
      apply ih b (rank_base?_lt hsb) hb hc hcb.symm
      intro x hx y hy
      exact h x (mem_baseTypes_iff.2 (.inr ⟨b, hsb, hx⟩)) y (mem_baseTypes_iff.2 (.inr ⟨c, htc, hy⟩))

section Alike

variable (hs : Obtainable s) (ht : Obtainable t) (hid : s.identity = t.identity)
  (h : ∀ x ∈ s.surroundings, ∀ y ∈ t.surroundings, x.identity = y.identity → x.SameDeclaration y)
include hs ht hid h

theorem map_profile_baseTypes_of_surroundings : s.baseTypes.map profile = t.baseTypes.map profile := by
  apply map_profile_baseTypes hs ht hid
  intro x hx y hy
  exact h x (mem_surroundings_of_baseTypes hx) y (mem_surroundings_of_baseTypes hy)

theorem contains_allInterfaces_of_mem {i : LoadedType} (hi : i ∈ s.allInterfaces) :
    t.allInterfaces.contains i = true := by
  have transfer {x y : LoadedType} (hx : x ∈ s.surroundings) (hy : y ∈ t.surroundings)
      (hxy : x.identity = y.identity) (hcy : ∀ j ∈ y.interfaces, t.allInterfaces.contains j = true) :
      ∀ j ∈ x.interfaces, t.allInterfaces.contains j = true := by
    intro j hj
    obtain ⟨k, hk, hkj⟩ := (h x hx y hy hxy).exists_interface hj
    obtain ⟨l, hl, hlk⟩ := contains_iff.1 (hcy k hk)
    exact contains_iff.2 ⟨l, hl, hlk.trans hkj⟩
  apply of_mem_allInterfaces _ _ i hi
  · intro b hb
    have hmem : b.profile ∈ t.baseTypes.map profile :=
      map_profile_baseTypes_of_surroundings hs ht hid h ▸ List.mem_map_of_mem hb
    obtain ⟨c, hc, hcb⟩ := List.mem_map.1 hmem
    have hbc : b.identity = c.identity := (Prod.mk.inj hcb).1.symm
    apply transfer (mem_surroundings_of_baseTypes hb) (mem_surroundings_of_baseTypes hc) hbc
    exact fun j hj => contains_allInterfaces_of_declared hc hj
  · intro x hx hcx
    obtain ⟨y, hy, hyx⟩ := contains_iff.1 hcx
    apply transfer (mem_surroundings_of_allInterfaces hx) (mem_surroundings_of_allInterfaces hy) hyx.symm
    exact fun j hj => contains_allInterfaces_of_extended hy hj

theorem map_profile_allInterfaces_subset : s.allInterfaces.map profile ⊆ t.allInterfaces.map profile := by
  intro p hp
  obtain ⟨i, hi, rfl⟩ := List.mem_map.1 hp
  obtain ⟨j, hj, hji⟩ := contains_iff.1 (contains_allInterfaces_of_mem hs ht hid h hi)
  have hi := mem_surroundings_of_allInterfaces hi
  have hj' := mem_surroundings_of_allInterfaces hj
  have hsame := h i hi j hj' hji.symm
  rw [profile_eq_of_identity (hs.surroundings hi) (ht.surroundings hj') hji.symm hsame.parameters]
  exact List.mem_map_of_mem hj

end Alike

theorem SameDeclaration.symm (h : s.SameDeclaration t) : t.SameDeclaration s where
  base := h.base.symm
  interfaces x := (h.interfaces x).symm
  root := h.root.symm
  parameters := h.parameters.symm

theorem sameHierarchy_of_identity (hs : Obtainable s) (ht : Obtainable t) (hid : s.identity = t.identity)
    (h : ∀ x ∈ s.surroundings, ∀ y ∈ t.surroundings, x.identity = y.identity → x.SameDeclaration y) :
    s.SameHierarchy t where
  baseTypes := map_profile_baseTypes_of_surroundings hs ht hid h
  interfaces p := by
    have h' : ∀ x ∈ t.surroundings, ∀ y ∈ s.surroundings, x.identity = y.identity → x.SameDeclaration y := by
      intro x hx y hy hxy
      exact (h y hy x hx hxy.symm).symm
    constructor
    · exact fun hp => map_profile_allInterfaces_subset hs ht hid h hp
    · exact fun hp => map_profile_allInterfaces_subset ht hs hid.symm h' hp

theorem derivesFrom_congr_ancestor (hid : a.identity = b.identity) (h : a.SameDeclaration b) (t : LoadedType) :
    t.derivesFrom a = t.derivesFrom b := by
  have hta (u : LoadedType) : (u == a) = (u == b) := by rw [Bool.eq_iff_iff, beq_iff, beq_iff, hid]
  have hat (u : LoadedType) : (a == u) = (b == u) := by rw [Bool.eq_iff_iff, beq_iff, beq_iff, hid]
  have hi : a.isInterface = b.isInterface := by rw [isInterface, isInterface, form_eq_of_identity hid]
  have hg := isGenericDefinition_congr h.parameters
  simp only [derivesFrom, accepts, hta, hat, h.root, hg, hi, List.contains_eq_any_beq]

end LoadedType

namespace AncestryMemo

structure Question where
  type : LoadedType
  ancestor : LoadedType

namespace Question

def key (q : Question) : Identity × Identity := (q.type.identity, q.ancestor.identity)

def answer (q : Question) : Bool := q.type.derivesFrom q.ancestor

def types (q : Question) : List LoadedType := q.type.surroundings ++ q.ancestor.surroundings

theorem answer_eq_of_key {q r : Question} (ho : ∀ t ∈ [q.type, q.ancestor, r.type, r.ancestor], t.Obtainable)
    (h : ∀ s ∈ q.types, ∀ t ∈ r.types, (s == t) = true → s.SameDeclaration t) (hk : q.key = r.key) :
    q.answer = r.answer := by
  obtain ⟨htype, hancestor⟩ := Prod.mk.inj hk
  have hsame : q.type.SameHierarchy r.type := by
    apply LoadedType.sameHierarchy_of_identity (ho _ (by simp)) (ho _ (by simp)) htype
    intro x hx y hy hxy
    exact h x (List.mem_append_left _ hx) y (List.mem_append_left _ hy) (LoadedType.beq_iff.2 hxy)
  have hself (t : LoadedType) : t ∈ t.surroundings :=
    LoadedType.mem_surroundings_of_baseTypes (LoadedType.mem_baseTypes_self t)
  have hdeclared : q.ancestor.SameDeclaration r.ancestor := by
    apply h _ (List.mem_append_right _ (hself _)) _ (List.mem_append_right _ (hself _))
    exact LoadedType.beq_iff.2 hancestor
  rw [answer, answer, hsame.derivesFrom_eq, LoadedType.derivesFrom_congr_ancestor hancestor hdeclared]

end Question

def answers (questions : List Question) : StateM AncestryMemo (List Bool) :=
  questions.mapM fun q => derivesFrom q.type q.ancestor

/-- What `memo` holds after the questions `asked`: one entry for each pair, with the answer to one of
the questions about it. -/
structure Remembers (memo : AncestryMemo) (asked : List Question) : Prop where
  nodup : (memo.entries.map Prod.fst).Nodup
  keys : ∀ k, k ∈ memo.entries.map Prod.fst ↔ k ∈ asked.map Question.key
  answered : ∀ k b, (k, b) ∈ memo.entries → ∃ q ∈ asked, q.key = k ∧ q.answer = b

variable {memo : AncestryMemo} {asked : List Question}

theorem remembers_empty : empty.Remembers [] where
  nodup := .nil
  keys k := Iff.rfl
  answered k b h := by cases h

theorem mem_entries_of_find? {t a : LoadedType} {b : Bool} (h : memo.find? t a = some b) :
    ((t.identity, a.identity), b) ∈ memo.entries := by
  obtain ⟨l, r, hsplit, -⟩ := List.lookup_eq_some_iff.1 h
  simp [hsplit]

theorem notMem_keys_of_find? {t a : LoadedType} (h : memo.find? t a = none) :
    (t.identity, a.identity) ∉ memo.entries.map Prod.fst := by
  intro hm
  obtain ⟨e, he, hk⟩ := List.mem_map.1 hm
  have := List.lookup_eq_none_iff.1 h e he
  simp [hk] at this

theorem Remembers.ask (h : memo.Remembers asked) {q : Question}
    (hq : ∀ r ∈ asked, r.key = q.key → r.answer = q.answer) :
    (derivesFrom q.type q.ancestor memo).1 = q.answer ∧
      (derivesFrom q.type q.ancestor memo).2.Remembers (asked ++ [q]) := by
  unfold derivesFrom
  cases hf : memo.find? q.type q.ancestor with
  | some b =>
    have hentry : (q.key, b) ∈ memo.entries := mem_entries_of_find? hf
    obtain ⟨r, hr, hk, rfl⟩ := h.answered q.key b hentry
    refine ⟨hq r hr hk, h.nodup, ?_, ?_⟩
    · intro k
      rw [h.keys, List.map_append, List.mem_append, List.map_singleton, List.mem_singleton]
      constructor
      · exact .inl
      · rintro (hk' | rfl)
        · exact hk'
        · exact List.mem_map.2 ⟨r, hr, hk⟩
    · intro k b hb
      obtain ⟨r, hr, hk⟩ := h.answered k b hb
      exact ⟨r, List.mem_append_left _ hr, hk⟩
  | none =>
    refine ⟨rfl, ?_, ?_, ?_⟩
    · exact List.nodup_cons.2 ⟨notMem_keys_of_find? hf, h.nodup⟩
    · intro k
      rw [List.map_cons, List.mem_cons, h.keys, List.map_append, List.mem_append, List.map_singleton,
        List.mem_singleton, or_comm]
      rfl
    · intro k b hb
      rcases List.mem_cons.1 hb with heq | hb
      · cases heq
        exact ⟨q, by simp, rfl, rfl⟩
      · obtain ⟨r, hr, hk⟩ := h.answered k b hb
        exact ⟨r, List.mem_append_left _ hr, hk⟩

theorem Remembers.askAll (h : memo.Remembers asked) (questions : List Question)
    (hq : ∀ q ∈ asked ++ questions, ∀ r ∈ asked ++ questions, q.key = r.key → q.answer = r.answer) :
    (answers questions memo).1 = questions.map Question.answer ∧
      (answers questions memo).2.Remembers (asked ++ questions) := by
  induction questions generalizing asked memo with
  | nil =>
    rw [List.append_nil]
    exact ⟨rfl, h⟩
  | cons q questions ih =>
    obtain ⟨hanswer, hmemo⟩ := h.ask (q := q) fun r hr => hq r (by simp [hr]) q (by simp)
    obtain ⟨hrest, hmemo⟩ := ih hmemo (by simpa using hq)
    rw [List.append_assoc] at hmemo
    rw [answers, mapM_cons_apply, List.map_cons, ← hanswer, ← hrest]
    exact ⟨rfl, hmemo⟩

theorem Remembers.size_eq (h : memo.Remembers asked) : memo.size = (asked.map Question.key).dedup.length := by
  have hperm : (memo.entries.map Prod.fst).Perm (asked.map Question.key).dedup := by
    rw [List.perm_ext_iff_of_nodup h.nodup (List.nodup_dedup _)]
    intro k
    rw [h.keys, List.mem_dedup]
  rw [size, ← hperm.length_eq, List.length_map]

theorem answers_eq_derivesFrom (questions : List Question)
    (ho : ∀ q ∈ questions, q.type.Obtainable ∧ q.ancestor.Obtainable)
    (h : ∀ s ∈ questions.flatMap Question.types, ∀ t ∈ questions.flatMap Question.types,
      (s == t) = true → s.SameDeclaration t) :
    (answers questions empty).1 = questions.map (fun q => q.type.derivesFrom q.ancestor) ∧
      (answers questions empty).2.size =
        (questions.map fun q => (q.type.identity, q.ancestor.identity)).dedup.length := by
  have hkey : ∀ q ∈ questions, ∀ r ∈ questions, q.key = r.key → q.answer = r.answer := by
    intro q hq r hr
    apply Question.answer_eq_of_key
    · have hoq := ho q hq
      have hor := ho r hr
      simp [hoq.1, hoq.2, hor.1, hor.2]
    · intro s hs t ht
      exact h s (List.mem_flatMap.2 ⟨q, hq, hs⟩) t (List.mem_flatMap.2 ⟨r, hr, ht⟩)
  obtain ⟨hanswers, hmemo⟩ := remembers_empty.askAll questions (by simpa using hkey)
  exact ⟨hanswers, hmemo.size_eq⟩

end AncestryMemo

namespace Library

def twinBag : LoadedType :=
  .defined (bag.implementing (sequence.instantiate [.defined (core .ordinaryClass "String")]))

def bagQuestions : List AncestryMemo.Question := [
  ⟨stringBag, known.strings⟩,
  ⟨twinBag, known.strings⟩,
  ⟨twinBag, .defined sequence⟩,
  ⟨known.strings, stringBag⟩]

end Library

theorem AncestryMemo.twin_bag_answers :
    (answers Library.bagQuestions empty).1 = [true, true, true, false] ∧
      (answers Library.bagQuestions empty).2.size = 3 := by
  have hsame : ∀ s ∈ Library.bagQuestions.flatMap Question.types,
      ∀ t ∈ Library.bagQuestions.flatMap Question.types, (s == t) = true →
        s.base?.map LoadedType.identity = t.base?.map LoadedType.identity ∧
        s.interfaces.map LoadedType.identity = t.interfaces.map LoadedType.identity ∧
        s.isRoot = t.isRoot ∧ s.parameters = t.parameters := by
    decide +kernel
  obtain ⟨hanswers, hsize⟩ := answers_eq_derivesFrom Library.bagQuestions (by decide +kernel) (by
    intro s hs t ht hst
    obtain ⟨hbase, hinterfaces, hroot, hparameters⟩ := hsame s hs t ht hst
    exact ⟨⟨hbase, fun _ => by rw [hinterfaces]⟩, hroot, hparameters⟩)
  rw [hanswers, hsize]
  decide +kernel

end CollationLint
