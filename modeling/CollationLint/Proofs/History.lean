import CollationLint.Proofs.Loading
import CollationLint.Proofs.Outcomes
import CollationLint.Proofs.StableSort

namespace CollationLint

namespace LoadedType

theorem contains_iff {l : List LoadedType} {t : LoadedType} :
    l.contains t = true ↔ ∃ s ∈ l, s.identity = t.identity := by
  simp only [List.contains_eq_any_beq, List.any_eq_true, beq_iff]
  constructor
  · rintro ⟨s, hs, hid⟩
    exact ⟨s, hs, hid.symm⟩
  · rintro ⟨s, hs, hid⟩
    exact ⟨s, hs, hid.symm⟩

/-- A type as the search for an ancestor sees it, with the definition it was constructed from. -/
def profile (t : LoadedType) : Identity × Option Identity := (t.identity, t.definition?.map identity)

structure SameHierarchy (s t : LoadedType) : Prop where
  baseTypes : s.baseTypes.map profile = t.baseTypes.map profile
  interfaces : ∀ p, p ∈ s.allInterfaces.map profile ↔ p ∈ t.allInterfaces.map profile

section Profile

variable {l m : List LoadedType} (h : ∀ p, p ∈ l.map profile ↔ p ∈ m.map profile) (a : LoadedType)
include h

theorem contains_eq_of_profile : l.contains a = m.contains a := by
  have mem (k : List LoadedType) : k.contains a = true ↔ ∃ p ∈ k.map profile, p.1 = a.identity := by
    simp [contains_iff, profile]
  rw [Bool.eq_iff_iff, mem, mem]
  simp only [h]

theorem any_definition_eq_of_profile :
    (l.any fun c => c.definition?.any (· == a)) = m.any fun c => c.definition?.any (· == a) := by
  have mem (k : List LoadedType) : (k.any fun c => c.definition?.any (· == a)) = true ↔
      ∃ p ∈ k.map profile, p.2 = some a.identity := by
    simp [profile, Option.any_eq_true, beq_iff]
  rw [Bool.eq_iff_iff, mem, mem]
  simp only [h]

end Profile

theorem exists_baseTypes_eq_cons (t : LoadedType) : ∃ rest, t.baseTypes = t :: rest := by
  rw [baseTypes]
  exact ⟨_, rfl⟩

namespace SameHierarchy

variable {s t : LoadedType} (h : s.SameHierarchy t)
include h

theorem profile_eq : s.profile = t.profile := by
  obtain ⟨ss, hs⟩ := s.exists_baseTypes_eq_cons
  obtain ⟨ts, ht⟩ := t.exists_baseTypes_eq_cons
  have hb := h.baseTypes
  rw [hs, ht, List.map_cons, List.map_cons] at hb
  exact (List.cons.inj hb).1

theorem derivesFrom_eq (a : LoadedType) : s.derivesFrom a = t.derivesFrom a := by
  have hid : s.identity = t.identity := (Prod.mk.inj h.profile_eq).1
  have hsa : (s == a) = (t == a) := by rw [Bool.eq_iff_iff, beq_iff, beq_iff, hid]
  have has : (a == s) = (a == t) := by rw [Bool.eq_iff_iff, beq_iff, beq_iff, hid]
  have hbase : ∀ p, p ∈ s.baseTypes.map profile ↔ p ∈ t.baseTypes.map profile := by
    intro p
    rw [h.baseTypes]
  have hself : ∀ p, p ∈ (s :: s.allInterfaces).map profile ↔ p ∈ (t :: t.allInterfaces).map profile := by
    intro p
    rw [List.map_cons, List.map_cons, List.mem_cons, List.mem_cons, h.profile_eq, h.interfaces]
  simp only [derivesFrom, accepts, hsa, has, contains_eq_of_profile h.interfaces,
    contains_eq_of_profile hbase]
  cases a.isInterface with
  | true => simp only [↓reduceIte, any_definition_eq_of_profile hself]
  | false => simp only [Bool.false_eq_true, ↓reduceIte, any_definition_eq_of_profile hbase]

end SameHierarchy

end LoadedType

def Resolver.IsCoherent (resolver : Resolver) : Prop :=
  ∀ {assembly assembly' name name' arguments arguments' s t},
    resolver assembly name arguments = .found s → resolver assembly' name' arguments' = .found t →
    (s == t) = true → s.SameHierarchy t

inductive Request where
  | comparison (f : Forest) (i : Nat)
  | call (f : Forest) (i : Nat)
  | forest (f : Forest)

namespace Linter

variable (linter : Linter)

def serve : Request → StateM AncestryMemo (List Diagnostic)
  | .comparison f i => return (linter.checkComparison f i).toList
  | .call f i => Option.toList <$> linter.checkCall f i
  | .forest f => linter.run f

def memoAfter (history : List Request) : AncestryMemo :=
  history.foldl (fun memo request => (linter.serve request memo).2) .empty

/-- Loaded types that cannot be told apart are sequences of strings alike. -/
def IsSteady : Prop :=
  ∀ s t, linter.resolver.Loads s → linter.resolver.Loads t → s.identity = t.identity →
    s.derivesFrom linter.known.strings = t.derivesFrom linter.known.strings

/-- What is remembered of a type that can be loaded is true of it. -/
def Trusts (memo : AncestryMemo) : Prop :=
  ∀ t b, linter.resolver.Loads t → memo.find? t linter.known.strings = some b →
    b = t.derivesFrom linter.known.strings

variable {linter}

theorem isSteady_of_isCoherent (h : linter.resolver.IsCoherent) : linter.IsSteady := by
  intro s t hs ht hid
  obtain ⟨_, _, _, hs⟩ := TypeRef.found_of_loads hs
  obtain ⟨_, _, _, ht⟩ := TypeRef.found_of_loads ht
  exact (h hs ht (LoadedType.beq_iff.2 hid)).derivesFrom_eq _

theorem trusts_empty : linter.Trusts .empty := by
  intro t b _ h
  cases h

variable {memo : AncestryMemo} {t : LoadedType}

theorem Trusts.derivesFrom_fst (hm : linter.Trusts memo) (ht : linter.resolver.Loads t) :
    (AncestryMemo.derivesFrom t linter.known.strings memo).1 = t.derivesFrom linter.known.strings :=
  AncestryMemo.answer_eq_derivesFrom fun b => hm t b ht

theorem Trusts.derivesFrom_snd (hs : linter.IsSteady) (hm : linter.Trusts memo)
    (ht : linter.resolver.Loads t) :
    linter.Trusts (AncestryMemo.derivesFrom t linter.known.strings memo).2 := by
  unfold AncestryMemo.derivesFrom
  cases hf : memo.find? t linter.known.strings with
  | some b => exact hm
  | none =>
    intro s b hl hb
    rw [AncestryMemo.find?, List.lookup_cons] at hb
    split at hb
    · next heq =>
      cases hb
      have hid : s.identity = t.identity := (Prod.mk.inj (eq_of_beq heq)).1
      exact (hs s t hl ht hid).symm
    · exact hm s b hl hb

section Checks

variable (hs : linter.IsSteady) (hm : linter.Trusts memo)
include hs hm

theorem membership_of_trusts (location : Location) {r : TypeRef} :
    (linter.membership location (r.load linter.resolver) memo).1 =
        (linter.membership location (r.load linter.resolver) .empty).1 ∧
      linter.Trusts (linter.membership location (r.load linter.resolver) memo).2 := by
  rcases hl : r.load linter.resolver with c | _ | t
  · exact ⟨rfl, hm⟩
  · exact ⟨rfl, hm⟩
  · have answer {memo : AncestryMemo} (hm : linter.Trusts memo) :
        (linter.membership location (.ok (some t)) memo).1 =
          linter.record location (.ok (t.derivesFrom linter.known.strings)) := by
      rw [← hm.derivesFrom_fst ⟨r, hl⟩]
      rfl
    exact ⟨(answer hm).trans (answer trusts_empty).symm, hm.derivesFrom_snd hs ⟨r, hl⟩⟩

theorem check_of_trusts (f : Forest) (i : Nat) :
    (linter.check f i memo).1 = (linter.check f i .empty).1 ∧ linter.Trusts (linter.check f i memo).2 := by
  obtain ⟨n, target, -, -, -, -, hc⟩ | ⟨outcome, -, hc⟩ := linter.check_cases f i
  · have hc : linter.check f i = _ := hc linter.resolver
    rw [hc]
    exact membership_of_trusts hs hm n.location
  · have hc : linter.check f i = _ := hc linter.resolver
    rw [hc]
    exact ⟨rfl, hm⟩

theorem mapM_check_of_trusts (f : Forest) (is : List Nat) :
    (is.mapM (linter.check f) memo).1 = is.map (fun i => (linter.check f i .empty).1) ∧
      linter.Trusts (is.mapM (linter.check f) memo).2 := by
  induction is generalizing memo with
  | nil => exact ⟨rfl, hm⟩
  | cons i is ih =>
    obtain ⟨hfirst, hm'⟩ := check_of_trusts hs hm f i
    obtain ⟨hrest, hm''⟩ := ih hm'
    rw [mapM_cons_apply, List.map_cons, ← hfirst, ← hrest]
    exact ⟨rfl, hm''⟩

theorem checkCall_of_trusts (f : Forest) (i : Nat) : linter.Trusts (linter.checkCall f i memo).2 := by
  cases ht : f.target? i with
  | some target =>
    rw [← linter.check_of_invocation memo (Forest.kind?_of_target? ht)]
    exact (check_of_trusts hs hm f i).2
  | none =>
    have hr : linter.known.ruling linter.resolver f i = .error (.notCall i) := by
      rw [WellKnown.ruling, ht]
    cases hn : f.node? i with
    | none =>
      rw [checkCall, hn]
      exact hm
    | some n =>
      rw [linter.checkCall_eq hn, WellKnown.flagsCall_of_fault hr]
      exact hm

theorem serve_of_trusts (request : Request) : linter.Trusts (linter.serve request memo).2 := by
  cases request with
  | comparison f i => exact hm
  | call f i => exact checkCall_of_trusts hs hm f i
  | forest f => exact (mapM_check_of_trusts hs hm f f.ids).2

end Checks

theorem trusts_foldl_serve (hs : linter.IsSteady) (hm : linter.Trusts memo) (history : List Request) :
    linter.Trusts (history.foldl (fun memo request => (linter.serve request memo).2) memo) := by
  induction history generalizing memo with
  | nil => exact hm
  | cons request history ih => exact ih (serve_of_trusts hs hm request)

theorem trusts_memoAfter (hs : linter.IsSteady) (history : List Request) :
    linter.Trusts (linter.memoAfter history) :=
  trusts_foldl_serve hs trusts_empty history

theorem run_eq_iff_isStableSort (linter : Linter) (hr : linter.resolver.IsCoherent)
    (history : List Request) (f : Forest) (records : List Diagnostic) :
    (linter.run f (linter.memoAfter history)).1 = records ↔
      IsStableSort Diagnostic.location (f.ids.filterMap fun i => (linter.check f i .empty).1) records := by
  have hs := isSteady_of_isCoherent hr
  obtain ⟨hrecords, -⟩ := mapM_check_of_trusts hs (trusts_memoAfter hs history) f f.ids
  have hrun : (linter.run f (linter.memoAfter history)).1 =
      ((f.ids.mapM (linter.check f) (linter.memoAfter history)).1.filterMap id).mergeSort
        (noLater Diagnostic.location) := rfl
  rw [hrun, hrecords, List.filterMap_map, isStableSort_iff, eq_comm]
  rfl

end Linter

namespace Library

def stringBag : LoadedType := .defined (bag.implementing known.strings)

def bags : Assemblies := .register .empty ((Assembly.named "Bags").addType stringBag)

theorem eq_stringBag_of_found {assembly name : String} {arguments : List LoadedType} {t : LoadedType}
    (h : bags.resolver assembly name arguments = .found t) : t = stringBag := by
  obtain ⟨s, hs, -, h⟩ := Assemblies.mem_types_of_found h
  have hs : s ∈ [stringBag] := hs
  obtain rfl := List.mem_singleton.1 hs
  rcases h with ⟨-, rfl⟩ | ⟨-, h⟩
  · rfl
  · cases h

theorem bags_isCoherent : bags.resolver.IsCoherent := by
  intro _ _ _ _ _ _ s t hs ht _
  rw [eq_stringBag_of_found hs, eq_stringBag_of_found ht]
  exact ⟨rfl, fun _ => Iff.rfl⟩

def onLine (line : UInt32) : Location := .point "Query" line 1

def busyQuery : Forest := query [
  stringLocal "a",
  stringLocal "b",
  ⟨.binary .equals, none, onLine 2, [0, 1]⟩,
  ⟨.binary .equals, none, onLine 1, []⟩,
  ⟨.reference .localVariable "owner", none, site, []⟩,
  stringLocal "item",
  ⟨.argument, none, site, [5]⟩,
  ⟨.invocation (containsTarget "Bags"), none, onLine 1, [4, 6]⟩,
  ⟨.block, none, site, [2, 3, 7]⟩]

def bagLinter : Linter := .ofKnown known bags.resolver

end Library

theorem Linter.busy_query_sorted :
    (Library.bagLinter.run Library.busyQuery
      (Library.bagLinter.memoAfter [.call Library.busyQuery 7, .forest Library.busyQuery])).1.map
        (fun d => (d.isFault, d.location)) =
      [(true, Library.onLine 1), (false, Library.onLine 1), (false, Library.onLine 2)] := by
  have hsort := (Library.bagLinter.run_eq_iff_isStableSort Library.bags_isCoherent
    [.call Library.busyQuery 7, .forest Library.busyQuery] Library.busyQuery _).1 rfl
  have hmap : IsStableSort Prod.snd _ _ := .map (fun d : Diagnostic => (d.isFault, d.location)) hsort
  have hrecords : (Library.busyQuery.ids.filterMap fun i =>
      (Library.bagLinter.check Library.busyQuery i .empty).1).map (fun d => (d.isFault, d.location)) =
      [(false, Library.onLine 2), (true, Library.onLine 1), (false, Library.onLine 1)] := by
    decide +kernel
  rw [hrecords] at hmap
  refine hmap.unique ⟨by decide +kernel, by decide +kernel, fun k => ?_⟩
  have hne : Library.onLine 1 ≠ Library.onLine 2 := by decide
  by_cases hk : Library.onLine 1 = k
  · subst hk
    simp [Ne.symm hne]
  · simp [List.filter_cons, hk]

end CollationLint
