import CollationLint.Proofs.WellFormed

namespace CollationLint

namespace Declaration

inductive Clause (τ : Type) where
  | parameters (names : List String)
  | extending (base : τ)
  | implementing (interface : τ)

namespace Clause

variable {τ : Type}

def types : Clause τ → List τ
  | .parameters _ => []
  | .extending t | .implementing t => [t]

def map {α β : Type} (f : α → β) : Clause α → Clause β
  | .parameters names => .parameters names
  | .extending base => .extending (f base)
  | .implementing interface => .implementing (f interface)

def apply (d : Declaration τ) : Clause τ → Declaration τ
  | .parameters names => d.withParameters names
  | .extending base => d.extending base
  | .implementing interface => d.implementing interface

end Clause

/-- The declaration with further clauses, which may come in any order and more than once. -/
def written {τ : Type} (d : Declaration τ) (clauses : List (Clause τ)) : Declaration τ :=
  clauses.foldl Clause.apply d

variable {d : Definition} {p : LoadedType}

theorem Clause.mem_parents_apply {c : Clause LoadedType} (h : p ∈ (c.apply d).parents) :
    p ∈ d.parents ∨ p ∈ c.types := by
  cases c with
  | parameters names =>
    left
    have hparents : (d.withParameters names).parents = d.parents := by
      unfold withParameters
      split <;> rfl
    rwa [apply, hparents] at h
  | extending base =>
    simp only [apply, Declaration.extending, parents, Option.toList_some, List.mem_append, types] at h ⊢
    tauto
  | implementing interface =>
    simp only [apply, Declaration.implementing, parents, List.mem_append, types] at h ⊢
    tauto

theorem mem_parents_written {clauses : List (Clause LoadedType)} (h : p ∈ (d.written clauses).parents) :
    p ∈ d.parents ∨ ∃ c ∈ clauses, p ∈ c.types := by
  induction clauses generalizing d with
  | nil => exact .inl h
  | cons c clauses ih =>
    rcases ih h with h | ⟨c', hc', hp⟩
    · rcases Clause.mem_parents_apply h with h | h
      · exact .inl h
      · exact .inr ⟨c, List.mem_cons_self, h⟩
    · exact .inr ⟨c', List.mem_cons_of_mem c hc', hp⟩

theorem written_implementing (interfaces : List LoadedType) :
    d.written (interfaces.map .implementing) = { d with interfaces := d.interfaces ++ interfaces } := by
  induction interfaces generalizing d with
  | nil => simp [written]
  | cons i interfaces ih =>
    have := ih (d := d.implementing i)
    simpa [written, Clause.apply, implementing] using this

theorem exists_written (d : Definition) :
    ∃ clauses, (bare d.role d.assembly d.space d.simpleName).written clauses = d ∧
      ∀ c ∈ clauses, ∀ t ∈ c.types, t ∈ d.parents := by
  refine ⟨.parameters d.parameterNames :: (d.base.toList.map .extending ++ d.interfaces.map .implementing),
    ?_, ?_⟩
  · have happend (e : Definition) (cs cs' : List (Clause LoadedType)) :
        e.written (cs ++ cs') = (e.written cs).written cs' := List.foldl_append
    have hcons (e : Definition) (c : Clause LoadedType) (cs : List (Clause LoadedType)) :
        e.written (c :: cs) = (c.apply e).written cs := rfl
    have hnames : Clause.apply (τ := LoadedType) (bare d.role d.assembly d.space d.simpleName)
        (.parameters d.parameterNames) = ⟨d.assembly, d.space, d.simpleName, d.role, d.parameterNames, none, []⟩ := by
      cases hn : d.parameterNames <;> rfl
    rw [hcons, hnames, happend, written_implementing]
    obtain ⟨_, _, _, _, _, base, _⟩ := d
    cases base <;> rfl
  · intro c hc t ht
    simp only [List.mem_cons, List.mem_append, List.mem_map, Option.mem_toList] at hc
    rcases hc with rfl | ⟨b, hb, rfl⟩ | ⟨i, hi, rfl⟩
    · cases ht
    · rw [List.mem_singleton.1 ht]
      simp [parents, Option.mem_def.1 hb]
    · rw [List.mem_singleton.1 ht]
      simp [parents, hi]

theorem name_of_isGeneric (h : d.isGeneric = true) : d.name = withArity d.simpleName d.arity := by
  rw [name, if_pos h]

theorem owner_of_mem_parameters {p : Parameter} (h : p ∈ d.parameters) : p.owner = d.fullName := by
  obtain ⟨i, hi, rfl⟩ := List.mem_mapIdx.1 h
  rfl

end Declaration

namespace LoadedType

/-- Types that are there to be had: parameters, whatever a declaration over such types declares, and
definitions bound to such types. -/
inductive Obtainable : LoadedType → Prop
  | parameter (p : Parameter) : Obtainable (.parameter p)
  | written (role : Role) (assembly space name : String) (clauses : List (Declaration.Clause LoadedType))
      (h : ∀ c ∈ clauses, ∀ t ∈ c.types, Obtainable t) :
      Obtainable (.defined (Declaration.written (.bare role assembly space name) clauses))
  | bound {t u : LoadedType} {arguments : List LoadedType} (ht : Obtainable t)
      (ha : ∀ a ∈ arguments, Obtainable a) (hb : t.bind arguments = .ok u) : Obtainable u

variable {t u : LoadedType} {d : Definition} {arguments : List LoadedType}

theorem obtainable_defined_iff : Obtainable (.defined d) ↔ ∀ p ∈ d.parents, Obtainable p := by
  constructor
  · intro h
    generalize ht : defined d = t at h
    induction h with
    | parameter p => cases ht
    | written role assembly space name clauses h _ =>
      cases ht
      intro p hp
      rcases Declaration.mem_parents_written hp with hp | ⟨c, hc, hp⟩
      · cases hp
      · exact h c hc p hp
    | bound _ _ hb ih =>
      obtain ⟨e, rfl, -, -, hu⟩ := exists_definition_of_bind hb
      rw [← ht, ← d.instantiate_parameters] at hu
      exact ih (by rw [(Declaration.instantiate_inj hu).1])
  · intro h
    obtain ⟨clauses, hd, hc⟩ := d.exists_written
    rw [← hd]
    exact .written _ _ _ _ clauses fun c hm t ht => h t (hc c hm t ht)

theorem obtainable_constructed_iff : Obtainable (.constructed d arguments) ↔
    Obtainable (.defined d) ∧ d.isGeneric = true ∧ arguments.length = d.arity ∧
      arguments ≠ d.parameters.map .parameter ∧ ∀ a ∈ arguments, Obtainable a := by
  constructor
  · intro h
    cases h with
    | @bound t _ as ht ha hb =>
      obtain ⟨e, rfl, hg, hlen, hu⟩ := exists_definition_of_bind hb
      have hne : as ≠ e.parameters.map .parameter := by
        intro hc
        rw [hc, Declaration.instantiate_parameters] at hu
        cases hu
      rw [Declaration.instantiate_of_ne hne] at hu
      cases hu
      exact ⟨ht, hg, hlen, hne, ha⟩
  · rintro ⟨hd, hg, hlen, hne, ha⟩
    exact .bound hd ha (bind_defined_eq_ok_iff.2 ⟨hg, hlen, Declaration.instantiate_of_ne hne⟩)

theorem Obtainable.instantiate (hd : Obtainable (.defined d)) (hg : d.isGeneric = true)
    (hlen : arguments.length = d.arity) (ha : ∀ a ∈ arguments, Obtainable a) :
    Obtainable (d.instantiate arguments) :=
  .bound hd ha (bind_defined_eq_ok_iff.2 ⟨hg, hlen, rfl⟩)

theorem Obtainable.subst {σ : Bindings} (hσ : ∀ p a, σ.lookup p = some a → Obtainable a)
    (h : Obtainable t) : Obtainable (t.subst σ) := by
  induction t using argumentRec with
  | parameter p =>
    rw [LoadedType.subst]
    cases hp : σ.lookup p with
    | none => exact .parameter p
    | some a => exact hσ p a hp
  | defined d => exact h
  | constructed d arguments ih =>
    obtain ⟨hd, hg, hlen, -, ha⟩ := obtainable_constructed_iff.1 h
    rw [subst_constructed]
    apply hd.instantiate hg (by rw [List.length_map, hlen])
    intro x hx
    obtain ⟨a, hm, rfl⟩ := List.mem_map.1 hx
    exact ih a hm (ha a hm)

theorem Obtainable.extends {p : LoadedType} (h : Obtainable t) (hp : t.Extends p) : Obtainable p := by
  cases t with
  | parameter q => cases hp
  | defined d => exact obtainable_defined_iff.1 h p hp
  | constructed d arguments =>
    obtain ⟨hd, -, -, -, ha⟩ := obtainable_constructed_iff.1 h
    rw [Extends, parents_constructed] at hp
    obtain ⟨q, hq, rfl⟩ := List.mem_map.1 hp
    apply Obtainable.subst _ (obtainable_defined_iff.1 hd q hq)
    intro x a hx
    exact ha a (mem_of_lookup_zip hx)

theorem Obtainable.argument {a : LoadedType} (h : Obtainable t) (ha : a ∈ t.arguments) : Obtainable a := by
  cases t with
  | parameter p => cases ha
  | defined d => cases ha
  | constructed d arguments => exact (obtainable_constructed_iff.1 h).2.2.2.2 a ha

theorem beq_parameters_iff {ps : List Parameter} :
    (arguments == ps.map .parameter) = true ↔ arguments = ps.map .parameter := by
  rw [beq_list_iff]
  exact ⟨eq_parameters_of_identity, fun h => by rw [h]⟩

mutual

def isObtainable : LoadedType → Bool
  | .parameter _ => true
  | .defined d => hasObtainableParents d
  | .constructed d arguments => hasObtainableParents d && d.isGeneric && arguments.length == d.arity
    && arguments != d.parameters.map .parameter && allObtainable arguments

def hasObtainableParents : Declaration LoadedType → Bool
  | ⟨_, _, _, _, _, base, interfaces⟩ => optionObtainable base && allObtainable interfaces

def optionObtainable : Option LoadedType → Bool
  | none => true
  | some t => t.isObtainable

def allObtainable : List LoadedType → Bool
  | [] => true
  | t :: ts => t.isObtainable && allObtainable ts

end

theorem declarationRank_pos (d : Definition) : 0 < declarationRank d := by
  obtain ⟨_, _, _, _, _, _, _⟩ := d
  rw [declarationRank]
  omega

theorem rank_lt_of_mem_arguments {a : LoadedType} (h : a ∈ t.arguments) : a.rank < t.rank := by
  cases t with
  | parameter p => cases h
  | defined d => cases h
  | constructed d arguments =>
    have : a.rank ≤ rankAll arguments := rank_le_rankAll h
    have := declarationRank_pos d
    rw [rank]
    omega

theorem allObtainable_iff {ts : List LoadedType} :
    allObtainable ts = true ↔ ∀ t ∈ ts, t.isObtainable = true := by
  induction ts with
  | nil => simp [allObtainable]
  | cons t ts ih => simp [allObtainable, ih]

theorem hasObtainableParents_iff :
    hasObtainableParents d = true ↔ ∀ p ∈ d.parents, p.isObtainable = true := by
  obtain ⟨_, _, _, _, _, base, interfaces⟩ := d
  cases base <;> simp [hasObtainableParents, optionObtainable, allObtainable_iff, Declaration.parents]

theorem rank_lt_of_mem_parents {p : LoadedType} (h : p ∈ d.parents) : p.rank < declarationRank d := by
  rcases List.mem_append.1 h with hb | hi
  · exact rank_base_lt (by simpa using hb)
  · exact rank_interface_lt hi

theorem isObtainable_iff : t.isObtainable = true ↔ Obtainable t := by
  induction t using rankRec with
  | step t ih =>
    have hparents {d : Definition} (hd : declarationRank d ≤ t.rank) :
        hasObtainableParents d = true ↔ Obtainable (.defined d) := by
      rw [hasObtainableParents_iff, obtainable_defined_iff]
      apply forall₂_congr
      intro p hp
      apply ih
      have := rank_lt_of_mem_parents hp
      omega
    cases t with
    | parameter p => exact ⟨fun _ => .parameter p, fun _ => rfl⟩
    | defined d =>
      rw [isObtainable]
      exact hparents (Nat.le_of_eq (by rw [rank]))
    | constructed d arguments =>
      have ha : allObtainable arguments = true ↔ ∀ a ∈ arguments, Obtainable a := by
        rw [allObtainable_iff]
        apply forall₂_congr
        intro a hm
        exact ih a (rank_lt_of_mem_arguments hm)
      have hd := hparents (d := d) (by rw [rank]; omega)
      have hne : (arguments != d.parameters.map .parameter) = true ↔
          arguments ≠ d.parameters.map .parameter := by
        rw [bne, Bool.not_eq_true', ← Bool.not_eq_true, beq_parameters_iff]
      simp only [isObtainable, Bool.and_eq_true, hd, beq_iff_eq, hne, ha, obtainable_constructed_iff, and_assoc]

instance : DecidablePred Obtainable := fun _ => decidable_of_iff _ isObtainable_iff

end LoadedType

namespace Library

open Declaration (Clause)

def journalParameter (position : Nat) (name : String) : LoadedType :=
  .parameter ⟨"Books", "Journal`1`2", name, position⟩

/-- Written with a first group of parameters that the second one replaces. -/
def journal : Definition := .written (.bare .ordinaryClass "Books" "" "Journal") [
  .extending (.defined object),
  .parameters ["T"],
  .parameters ["K", "V"],
  .implementing (sequence.instantiate [journalParameter 1 "V"]),
  .extending (list.instantiate [journalParameter 0 "K"])]

def setOfStrings : LoadedType := hashSet.instantiate [.defined string]

def setJournal : LoadedType := journal.instantiate [.defined string, setOfStrings]

end Library

end CollationLint
