import CollationLint.Proofs.Reflection

namespace CollationLint

inductive Shape where
  | mk (space name : String) (arguments : List Shape)

namespace LoadedType

variable {s t : LoadedType}

mutual

def shape : LoadedType → Shape
  | .parameter p => .mk "" p.name []
  | .defined d => .mk d.space d.name []
  | .constructed d arguments => .mk d.space d.name (shapes arguments)

def shapes : List LoadedType → List Shape
  | [] => []
  | t :: ts => t.shape :: shapes ts

end

theorem shape_eq (t : LoadedType) : t.shape = .mk t.space t.name (t.arguments.map shape) := by
  have hall (ts : List LoadedType) : shapes ts = ts.map shape := by
    induction ts with
    | nil => rfl
    | cons t ts ih => rw [shapes, ih, List.map_cons]
  cases t with
  | parameter p => rfl
  | defined d => rfl
  | constructed d arguments => rw [shape, hall]; rfl

theorem shape_eq_iff : s.shape = t.shape ↔
    s.name = t.name ∧ s.space = t.space ∧ s.arguments.map shape = t.arguments.map shape := by
  rw [shape_eq s, shape_eq t, Shape.mk.injEq, and_left_comm]

theorem arguments_eq_nil_of_name (ht : Obtainable t) (hn : '`' ∉ t.name.toList) : t.arguments = [] := by
  cases t with
  | parameter p => rfl
  | defined d => rfl
  | constructed d arguments =>
    obtain ⟨-, hg, -, -, -⟩ := obtainable_constructed_iff.1 ht
    rw [LoadedType.name, Declaration.name_of_isGeneric hg, toList_withArity] at hn
    simp at hn

theorem denotes_reflected_iff (hs : Obtainable s) (hc : s.isOpen = false)
    (hn : ∀ d ∈ s.mentions, d.isGeneric = false → '`' ∉ d.name.toList) (ht : Obtainable t) :
    s.reflected.denotes t = true ↔ s.shape = t.shape := by
  induction s using argumentRec generalizing t with
  | parameter p => cases hc
  | defined d =>
    have hd := hn d List.mem_cons_self hc
    -- the arguments of `t` are not looked at, but a type with arguments has another name
    have harguments : d.name = t.name → [] = t.arguments.map shape := by
      intro hname
      rw [arguments_eq_nil_of_name ht (hname ▸ hd), List.map_nil]
    rw [shape_eq_iff, reflected, TypeRef.denotes]
    simp only [Bool.and_eq_true, decide_eq_true_eq]
    constructor
    · rintro ⟨hname, hspace⟩
      exact ⟨hname, hspace, harguments hname⟩
    · rintro ⟨hname, hspace, -⟩
      exact ⟨hname, hspace⟩
  | constructed d arguments ih =>
    obtain ⟨-, hg, hlen, -, ha⟩ := obtainable_constructed_iff.1 hs
    rw [isOpen_constructed] at hc
    have hne : reflectedAll arguments ≠ [] := by
      rw [reflectedAll_eq_map, ← List.length_pos_iff, List.length_map, hlen]
      exact Nat.pos_of_ne_zero (Declaration.isGeneric_iff.1 hg)
    have hname : withArity (withoutArity d.name) (reflectedAll arguments).length = d.name := by
      rw [reflectedAll_eq_map, List.length_map, hlen, Declaration.name_of_isGeneric hg, withoutArity_withArity]
    rw [shape_eq_iff, reflected, TypeRef.denotes_named_iff hne, hname, reflectedAll_eq_map,
      List.forall₂_map_left_iff, forall₂_iff_map_eq]
    · rfl
    · intro a hm b hb
      apply ih a hm (ha a hm) (hc a hm) _ (ht.argument hb)
      intro e he
      exact hn e (mem_mentions_constructed.2 (.inr ⟨a, hm, he⟩))

end LoadedType

namespace TypeRef

mutual

def unplaced : TypeRef → TypeRef
  | .named space name _ arguments => .named space name "" (unplacedAll arguments)
  | .array element => .array element.unplaced
  | .parameter name => .parameter name

def unplacedAll : List TypeRef → List TypeRef
  | [] => []
  | r :: rs => r.unplaced :: unplacedAll rs

end

theorem name_unplaced (r : TypeRef) : r.unplaced.name = r.name := by
  induction r using name.induct with
  | case1 space name assembly arguments => rw [unplaced, TypeRef.name, TypeRef.name]
  | case2 element ih => rw [unplaced, name, name, ih]
  | case3 name => rfl

theorem space_unplaced (r : TypeRef) : r.unplaced.space = r.space := by
  induction r using space.induct with
  | case1 space name assembly arguments => rw [unplaced, TypeRef.space, TypeRef.space]
  | case2 element ih => rw [unplaced, space, space, ih]
  | case3 name => rfl

theorem length_unplacedAll (rs : List TypeRef) : (unplacedAll rs).length = rs.length := by
  induction rs with
  | nil => rfl
  | cons r rs ih => rw [unplacedAll, List.length_cons, List.length_cons, ih]

mutual

theorem denotes_unplaced : (r : TypeRef) → (t : LoadedType) → r.unplaced.denotes t = r.denotes t
  | .named space name assembly [], t => rfl
  | .named space name assembly (a :: as), t => by
    have hall := denotesAll_unplacedAll (a :: as) t.arguments
    rw [unplacedAll] at hall
    rw [unplaced, unplacedAll, denotes, denotes, length_unplacedAll, hall]
  | .array element, t => by
    rw [unplaced, denotes, denotes, name, name, name_unplaced, space_unplaced]
  | .parameter name, t => rfl

theorem denotesAll_unplacedAll : (rs : List TypeRef) → (ts : List LoadedType) →
    denotesAll (unplacedAll rs) ts = denotesAll rs ts
  | [], ts => rfl
  | r :: rs, [] => rfl
  | r :: rs, t :: ts => by
    rw [unplacedAll, denotesAll, denotesAll, denotes_unplaced r t, denotesAll_unplacedAll rs ts]

end

theorem metadataName_of_denotes {r : TypeRef} {t : LoadedType} (h : r.denotes t = true) :
    r.metadataName = t.fullName := by
  -- all but generic mentions are matched by their whole name
  have hplain (hnil : r.arguments = []) (hname : r.name = t.name) (hspace : r.space = t.space) :
      r.metadataName = t.fullName := by
    rw [metadataName_of_nil hnil, hname, hspace, LoadedType.fullName]
  cases r with
  | array element =>
    simp only [denotes, Bool.and_eq_true, decide_eq_true_eq] at h
    exact hplain rfl h.1 h.2
  | parameter name =>
    simp only [denotes, Bool.and_eq_true, decide_eq_true_eq] at h
    exact hplain rfl h.1 h.2
  | named space name assembly arguments =>
    by_cases hne : arguments = []
    · subst hne
      simp only [denotes, Bool.and_eq_true, decide_eq_true_eq] at h
      exact hplain rfl h.1 h.2
    · obtain ⟨hname, hspace, -⟩ := (denotes_named_iff hne).1 h
      rw [metadataName_of_ne_nil (r := named space name assembly arguments) hne, withArity_qualify,
        LoadedType.fullName, ← hname, ← hspace]
      rfl

open LoadedType in
theorem denotes_iff_same_shape :
    (∀ s : LoadedType, Obtainable s → s.isOpen = false →
      (∀ d ∈ s.mentions, d.isGeneric = false → '`' ∉ d.name.toList) →
      ∀ r : TypeRef, r.unplaced = s.reflected.unplaced →
      ∀ t : LoadedType, Obtainable t → (r.denotes t = true ↔ s.shape = t.shape)) ∧
    ∀ (r : TypeRef) (t : LoadedType), r.denotes t = true → r.metadataName = t.fullName := by
  refine ⟨?_, fun r t => metadataName_of_denotes⟩
  intro s hs hc hn r hr t ht
  rw [← denotes_reflected_iff hs hc hn ht, ← denotes_unplaced r, hr, denotes_unplaced]

end TypeRef

namespace Library

/-- Another kind of list in another place, which goes by the same name. -/
def foreignList : Definition :=
  .withParameters ["TItem"] (.bare .interface "Elsewhere" collectionsSpace "List")

end Library

open LoadedType in
theorem TypeRef.list_of_sets_by_shape :
    Library.listOfSets.denotes (Library.foreignList.instantiate [Library.setOfStrings]) = true ∧
    Library.listOfSets.denotes (.defined Library.list) = false ∧
    Library.listOfSets.metadataName = "System.Collections.Generic.List`1" := by
  have hshape := denotes_iff_same_shape.1 (Library.list.instantiate [Library.setOfStrings])
    (by decide +kernel) (by decide +kernel) (by decide +kernel) Library.listOfSets rfl
  have hforeign : Library.listOfSets.denotes (Library.foreignList.instantiate [Library.setOfStrings]) = true :=
    (hshape _ (by decide +kernel)).2 rfl
  refine ⟨hforeign, ?_, denotes_iff_same_shape.2 _ _ hforeign⟩
  rw [← Bool.not_eq_true, hshape _ (by decide +kernel)]
  nofun

end CollationLint
