import CollationLint.Loaded.Substitution

namespace CollationLint

namespace LoadedType

mutual

/-- A bound on how far a type is from the roots of its hierarchy. -/
def rank : LoadedType → Nat
  | .parameter _ => 0
  | .defined d => declarationRank d
  | .constructed d arguments => declarationRank d + rankAll arguments

def declarationRank : Declaration LoadedType → Nat
  | ⟨_, _, _, _, _, base, interfaces⟩ => max (rankOption base) (rankAll interfaces) + 1

def rankOption : Option LoadedType → Nat
  | none => 0
  | some t => t.rank

def rankAll : List LoadedType → Nat
  | [] => 0
  | t :: ts => max t.rank (rankAll ts)

end

theorem rank_le_rankAll {t : LoadedType} {ts : List LoadedType} (h : t ∈ ts) : t.rank ≤ rankAll ts := by
  induction ts with
  | nil => cases h
  | cons s ts ih =>
    rw [rankAll]
    rcases List.mem_cons.1 h with rfl | h
    · exact Nat.le_max_left _ _
    · exact Nat.le_trans (ih h) (Nat.le_max_right _ _)

theorem rank_base_lt {d : Definition} {b : LoadedType} (h : d.base = some b) :
    b.rank < declarationRank d := by
  obtain ⟨_, _, _, _, _, base, _⟩ := d
  cases h
  simp only [declarationRank, rankOption]
  omega

theorem rank_interface_lt {d : Definition} {i : LoadedType} (h : i ∈ d.interfaces) :
    i.rank < declarationRank d := by
  obtain ⟨_, _, _, _, _, _, interfaces⟩ := d
  have : i.rank ≤ rankAll interfaces := rank_le_rankAll h
  simp only [declarationRank]
  omega

theorem rank_instantiate_le (d : Definition) (arguments : List LoadedType) :
    (d.instantiate arguments).rank ≤ declarationRank d + rankAll arguments := by
  unfold Declaration.instantiate
  split <;> simp only [rank] <;> omega

theorem rank_lookup_le {p : Parameter} {t : LoadedType} {ps : List Parameter} {ts : List LoadedType}
    (h : (ps.zip ts).lookup p = some t) : t.rank ≤ rankAll ts := by
  induction ps generalizing ts with
  | nil => cases h
  | cons q ps ih =>
    cases ts with
    | nil => cases h
    | cons s ts =>
      rw [List.zip_cons_cons, List.lookup_cons] at h
      rw [rankAll]
      split at h
      · cases h; exact Nat.le_max_left _ _
      · exact Nat.le_trans (ih h) (Nat.le_max_right _ _)

mutual

theorem rank_subst_le (ps : List Parameter) (ts : List LoadedType) :
    (t : LoadedType) → (t.subst (ps.zip ts)).rank ≤ t.rank + rankAll ts
  | .parameter p => by
    rw [subst]
    cases h : (ps.zip ts).lookup p with
    | none => simp [rank]
    | some s => simpa [rank] using rank_lookup_le h
  | .defined d => by rw [subst]; exact Nat.le_add_right _ _
  | .constructed d arguments => by
    have := rank_instantiate_le d (substAll (ps.zip ts) arguments)
    have := rankAll_substAll_le ps ts arguments
    rw [subst, rank]
    omega

theorem rankAll_substAll_le (ps : List Parameter) (ts : List LoadedType) :
    (us : List LoadedType) → rankAll (substAll (ps.zip ts) us) ≤ rankAll us + rankAll ts
  | [] => by simp [substAll, rankAll]
  | u :: us => by
    have := rank_subst_le ps ts u
    have := rankAll_substAll_le ps ts us
    simp only [substAll, rankAll]
    omega

end

def base? : LoadedType → Option LoadedType
  | .parameter _ => none
  | .defined d => d.base
  | .constructed d arguments => d.base.map (subst (d.bindings arguments))

def interfaces : LoadedType → List LoadedType
  | .parameter _ => []
  | .defined d => d.interfaces
  | .constructed d arguments => d.interfaces.map (subst (d.bindings arguments))

theorem rank_base?_lt {t b : LoadedType} (h : t.base? = some b) : b.rank < t.rank := by
  cases t with
  | parameter p => cases h
  | defined d => exact rank_base_lt h
  | constructed d arguments =>
    obtain ⟨s, hs, rfl⟩ := Option.map_eq_some_iff.1 h
    have := rank_base_lt hs
    have := rank_subst_le d.parameters arguments s
    rw [rank, Declaration.bindings]
    omega

theorem rank_interfaces_lt {t i : LoadedType} (h : i ∈ t.interfaces) : i.rank < t.rank := by
  cases t with
  | parameter p => cases h
  | defined d => exact rank_interface_lt h
  | constructed d arguments =>
    obtain ⟨s, hs, rfl⟩ := List.mem_map.1 h
    have := rank_interface_lt hs
    have := rank_subst_le d.parameters arguments s
    rw [rank, Declaration.bindings]
    omega

def baseTypes (t : LoadedType) : List LoadedType :=
  t :: match _h : t.base? with
    | none => []
    | some b => baseTypes b
termination_by t.rank
decreasing_by exact rank_base?_lt _h

def weight (t : LoadedType) : Nat :=
  t.interfaces.attach.foldr (fun i n => weight i.1 + n) 0 + 1
termination_by t.rank
decreasing_by exact rank_interfaces_lt i.2

def weightAll (ts : List LoadedType) : Nat :=
  ts.foldr (fun t n => t.weight + n) 0

theorem weight_eq (t : LoadedType) : t.weight = weightAll t.interfaces + 1 := by
  rw [weight, List.foldr_attach (f := fun i n => weight i + n), weightAll]

theorem weightAll_cons (t : LoadedType) (ts : List LoadedType) :
    weightAll (t :: ts) = t.weight + weightAll ts := rfl

theorem weightAll_append (ts us : List LoadedType) : weightAll (ts ++ us) = weightAll ts + weightAll us := by
  induction ts with
  | nil => exact (Nat.zero_add _).symm
  | cons t ts ih => rw [List.cons_append, weightAll_cons, weightAll_cons, ih, Nat.add_assoc]

/-- Takes the pending types one by one. What is new is found, and whatever it extends comes before all
that was pending. -/
def search (found : List LoadedType) : List LoadedType → List LoadedType
  | [] => found
  | t :: pending =>
    if found.contains t then search found pending
    else search (found ++ [t]) (t.interfaces ++ pending)
termination_by pending => weightAll pending
decreasing_by
  all_goals
    have := t.weight_eq
    have := weightAll_append t.interfaces pending
    rw [weightAll_cons]
    omega

def allInterfaces (t : LoadedType) : List LoadedType :=
  search [] (t.baseTypes.flatMap interfaces)

end LoadedType

end CollationLint
